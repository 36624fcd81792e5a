import Jkl.Pb.Order
import Jkl.Pb.ReadBackFields

/-! What `write` puts out for a value, `full_read` takes back to that value. -/
namespace Jkl.Pb
open Base128

variable {debug : Bool}

section Dispatch

variable {m : Machine} {flds : List Fld}

theorem tags_casesFrom (k : ℕ) : (casesFrom k flds (Fld.injectedFldReads m flds)).map Case.tag =
    (flds.flatMap Fld.injectedFlds).map Fld.tag := by
  induction flds generalizing k with
  | nil => rfl
  | cons f fs ih =>
    have hlen : f.injectedFlds.length ≤ (f.injectedFldRead m).length := by
      rw [length_injectedFldRead]
    have hzip : (f.injectedFlds.zip (f.injectedFldRead m)).map (fun gr => gr.1.tag) =
        f.injectedFlds.map Fld.tag := by
      conv_rhs => rw [← List.map_fst_zip hlen, List.map_map]
      rfl
    rw [Fld.injectedFldReads, casesFrom, List.map_append, ih, List.map_map, List.flatMap_cons,
      List.map_append]
    congr 1

theorem nodup_tags (hids : (ids flds).Nodup) : ((casesOf m flds).map Case.tag).Nodup := by
  have htags : ((flds.flatMap Fld.injectedFlds).map Fld.tag).map (· / 8) = ids flds := by
    rw [List.map_map]
    exact List.map_congr_left fun g _ => tag_div g
  rw [casesOf, tags_casesFrom]
  apply List.Nodup.of_map (· / 8)
  rw [htags]
  exact hids

theorem mem_casesFrom_of_zip {i k : ℕ} {f g : Fld} {read : Reader} (hf : flds[i]? = some f)
    (hg : (g, read) ∈ f.injectedFlds.zip (f.injectedFldRead m)) :
    ⟨g.tag, k + i, read⟩ ∈ casesFrom k flds (Fld.injectedFldReads m flds) := by
  induction flds generalizing i k with
  | nil => simp at hf
  | cons f' fs ih =>
    rw [Fld.injectedFldReads, casesFrom]
    cases i with
    | zero =>
      obtain rfl : f' = f := by simpa using hf
      exact List.mem_append_left _ (List.mem_map.mpr ⟨_, hg, rfl⟩)
    | succ i =>
      have hrest := ih (k := k + 1) (i := i) (by simpa using hf)
      rw [Nat.add_right_comm, Nat.add_assoc] at hrest
      exact List.mem_append_right _ hrest

/-- The tag of a field is dispatched to its own reader. -/
theorem ownCase_of_zip (hids : (ids flds).Nodup) {i : ℕ} {f g : Fld} {read : Reader}
    (hf : flds[i]? = some f) (hg : (g, read) ∈ f.injectedFlds.zip (f.injectedFldRead m)) :
    ownCase (casesOf m flds) g.tag = some ⟨g.tag, i, read⟩ := by
  have hmem := mem_casesFrom_of_zip (k := 0) hf hg
  rw [Nat.zero_add] at hmem
  cases hown : ownCase (casesOf m flds) g.tag with
  | none =>
    have hnone := List.find?_eq_none.mp hown _ hmem
    simp at hnone
  | some c =>
    obtain ⟨hc, htag⟩ := ownCase_eq_some hown
    rw [List.inj_on_of_nodup_map (nodup_tags hids) hc hmem htag]

/-- No tag is the start of another one. -/
theorem startsWith_other {t t' : ℕ} (ht : t < 2 ^ 32) (ht' : t' < 2 ^ 32) (hne : t ≠ t')
    (y : List UInt8) (l : ℕ) : startsWithVarintBytes t (varintBytes t' ++ y) l = none := by
  unfold startsWithVarintBytes
  rw [if_neg]
  rintro ⟨-, htake⟩
  rw [varintBytes_eq ht, varintBytes_eq ht'] at htake
  have hsplit := List.take_append_drop (encode t).length (encode t' ++ y)
  rw [htake] at hsplit
  have heq := (complete_encode t).append_inj (complete_encode t') hsplit
  apply hne
  rw [← value_encode t, heq.1, value_encode]

end Dispatch

section Message

variable {flds : List Fld} {us vs d : List Val} {bits : Bits} {x : List UInt8} {n : ℕ}

/-- Field `j` was read to its value, or it is left out. -/
def Settled (flds : List Fld) (us d vs : List Val) (bits : Bits) (j : ℕ) : Prop :=
  ∀ f u, flds[j]? = some f → us[j]? = some u →
    bits j = true ∧ vs[j]? = some u ∨ bits j = false ∧ f.LeftOut d u

/-- The pass over the fields at the end completes the struct. -/
theorem exam_settled (hplain : ∀ f ∈ flds, f.params.pCheck = none)
    (hsize : us.length = flds.length)
    {fs : List Fld} {i : ℕ} (hfs : flds.drop i = fs) (hlen : vs.length = flds.length)
    (hdone : vs.take i = us.take i) (hrest : ∀ j, i ≤ j → Settled flds us d vs bits j) :
    examSubFlds (.build debug) bits i fs vs = .ok 0 us := by
  induction fs generalizing i vs with
  | nil =>
    have hi : flds.length ≤ i := List.drop_eq_nil_iff.mp hfs
    rw [List.take_of_length_le (by omega), List.take_of_length_le (by omega)] at hdone
    rw [hdone]
    rfl
  | cons f fs ih =>
    have hf : flds[i]? = some f := by
      rw [← List.head?_drop, hfs]
      rfl
    obtain ⟨hi, hget⟩ := List.getElem?_eq_some_iff.mp hf
    have hfs' : flds.drop (i + 1) = fs := by rw [← List.tail_drop, hfs]; rfl
    have hu : us[i]? = some us[i] := List.getElem?_eq_getElem (by omega)
    have htake : ∀ ws : List Val, ws[i]? = some us[i] → ws.take i = us.take i →
        ws.take (i + 1) = us.take (i + 1) := by
      intro ws hw hd
      rw [List.take_add_one, List.take_add_one, hd, hw, hu]
    unfold examSubFlds
    rcases hrest i le_rfl f us[i] hf hu with ⟨hbit, hval⟩ | ⟨hbit, hout⟩
    · rw [if_pos hbit, hplain f (List.mem_of_getElem? hf)]
      exact ih hfs' hlen (htake vs hval hdone) fun j hj => hrest j (by omega)
    · rw [if_neg (by simp [hbit]), if_pos hout.2.1, hout.2.2]
      apply ih hfs' (by simpa using hlen)
      · apply htake
        · rw [List.getElem?_set_self (by omega)]
        · rw [List.take_set_of_le (by omega), hdone]
      · intro j hj g u hg hu'
        rcases hrest j (by omega) g u hg hu' with ⟨hb, hv⟩ | hleft
        · refine Or.inl ⟨hb, ?_⟩
          rw [List.getElem?_set_ne (by omega), hv]
        · exact Or.inr hleft

/-- The encoding of the fields of a message. -/
abbrev encodings (fs : List Fld) (d us : List Val) : List UInt8 := Fld.wires (fun bs => bs) fs d us

theorem encodings_cons (f : Fld) (fs : List Fld) (d : List Val) (u : Val) (us : List Val) :
    encodings (f :: fs) d (u :: us) =
      f.encoding false false d u ++ encodings fs d us := rfl

/-- The encoding of fields starts with the tag of one of them, if it is not empty. -/
theorem encodings_head {fs : List Fld} (hback : ∀ f ∈ fs, f.Restores debug)
    (hfit : Fld.fits fs us = true) (hlt : (encodings fs d us).length < 2 ^ 32) :
    encodings fs d us = [] ∨ ∃ g ∈ fs.flatMap Fld.injectedFlds, ∃ y,
      encodings fs d us = varintBytes g.tag ++ y := by
  induction fs generalizing us with
  | nil => exact Or.inl rfl
  | cons f fs ih =>
    obtain ⟨u, us, rfl, hu, hfit⟩ := Fld.fits_cons.mp hfit
    rw [encodings_cons, List.length_append] at hlt
    rw [encodings_cons, List.flatMap_cons]
    rcases hback f (by simp) d u hu (by omega) with hout | ⟨g, read, p, hg, henc, -⟩
    · rw [hout.1, List.nil_append]
      rcases ih (fun f hf => hback f (by simp [hf])) hfit (by omega) with hnil | ⟨g, hg, y, hy⟩
      · exact Or.inl hnil
      · exact Or.inr ⟨g, List.mem_append_right _ hg, y, hy⟩
    · rw [henc, List.append_assoc]
      exact Or.inr ⟨g, List.mem_append_left _ (List.of_mem_zip hg).1, _, rfl⟩

/-- A field has no number in common with the fields behind it. -/
theorem ids_ne {i : ℕ} {f g g' : Fld} {fs : List Fld} (hids : (ids flds).Nodup)
    (hfs : flds.drop i = f :: fs) (hg : g ∈ f.injectedFlds)
    (hg' : g' ∈ fs.flatMap Fld.injectedFlds) :
    g.id ≠ g'.id := by
  have hsub : (ids (f :: fs)).Nodup := by
    apply List.Nodup.sublist _ hids
    conv_rhs => rw [← List.take_append_drop i flds]
    rw [ids, ids, List.flatMap_append, List.map_append, hfs]
    exact List.sublist_append_right _ _
  rw [ids, List.flatMap_cons, List.map_append, List.nodup_append] at hsub
  exact hsub.2.2 _ (List.mem_map_of_mem hg) _ (List.mem_map_of_mem hg')

theorem settled_bits {i j : ℕ} (hbits : ∀ j, i ≤ j → bits j = false) (hj : i + 1 ≤ j) :
    bits.set i j = false := by
  have hne : j ≠ i := by omega
  simp [Bits.set, hne, hbits j (by omega)]

theorem settled_left_out {i : ℕ} {f : Fld} {u : Val} (hf : flds[i]? = some f) (hu : us[i]? = some u)
    (hbit : bits i = false) (hout : f.LeftOut d u)
    (hdone : ∀ j, j < i → Settled flds us d vs bits j) :
    ∀ j, j < i + 1 → Settled flds us d vs bits j := by
  intro j hj f' u' hf' hu'
  by_cases hji : j = i
  · subst hji
    rw [hf] at hf'
    rw [hu] at hu'
    cases hf'
    cases hu'
    exact Or.inr ⟨hbit, hout⟩
  · exact hdone j (by omega) f' u' hf' hu'

theorem settled_set {i : ℕ} {f : Fld} {u : Val} (hf : flds[i]? = some f) (hu : us[i]? = some u)
    (hi : i < vs.length) (hdone : ∀ j, j < i → Settled flds us d vs bits j) :
    ∀ j, j < i + 1 → Settled flds us d (vs.set i u) (bits.set i) j := by
  intro j hj f' u' hf' hu'
  by_cases hji : j = i
  · subst hji
    rw [hf] at hf'
    rw [hu] at hu'
    cases hf'
    cases hu'
    refine Or.inl ⟨by simp [Bits.set], ?_⟩
    rw [List.getElem?_set_self hi]
  · have hbit : bits.set i j = bits j := by simp [Bits.set, hji]
    rw [hbit, List.getElem?_set_ne (Ne.symm hji)]
    exact hdone j (by omega) f' u' hf' hu'

/-- What comes behind a field does not start with a tag of it. -/
theorem next_other (hids : (ids flds).Nodup) (hflds : Compile flds)
    (hback : ∀ f ∈ flds, f.Restores debug) {i : ℕ} {f g : Fld} {fs : List Fld} {ws : List Val}
    (hfs : flds.drop i = f :: fs) (hg : g ∈ f.injectedFlds) (hfit : Fld.fits fs ws = true)
    (hlt : (encodings fs d ws).length < 2 ^ 32) :
    (encodings fs d ws).length = 0 ∨
      startsWithVarintBytes g.tag (encodings fs d ws ++ x) (encodings fs d ws).length = none := by
  have hmem : ∀ f' ∈ f :: fs, f' ∈ flds := fun f' hf' => List.drop_subset i flds (hfs ▸ hf')
  have htag : ∀ f' ∈ f :: fs, ∀ g' ∈ f'.injectedFlds, g'.tag < 2 ^ 32 := fun f' hf' g' hg' =>
    mkTag_lt ((hflds f' (hmem f' hf')).2 g' hg') _
  have hhead := encodings_head (d := d)
    (fun f' hf' => hback f' (hmem f' (List.mem_cons_of_mem _ hf'))) hfit hlt
  rcases hhead with hnil | ⟨g', hg', z, hz⟩
  · rw [hnil]
    exact Or.inl rfl
  · obtain ⟨f', hf', hgf'⟩ := List.mem_flatMap.mp hg'
    have hne : g.tag ≠ g'.tag := by
      intro heq
      apply ids_ne hids hfs hg hg'
      rw [← tag_div, ← tag_div, heq]
    rw [hz, List.append_assoc]
    apply Or.inr
    apply startsWith_other (htag f List.mem_cons_self g hg) _ hne
    exact htag f' (List.mem_cons_of_mem _ hf') g' hgf'

/-- The turn that reads a field. -/
theorem field_turn (hids : (ids flds).Nodup) {i : ℕ} {f g : Fld} {read : Reader}
    {p rest : List UInt8} {u : Val} (hf : flds[i]? = some f)
    (hg : (g, read) ∈ f.injectedFlds.zip (f.injectedFldRead (.build debug)))
    (htag : g.tag < 2 ^ 32)
    (hread : ∀ u₀, read (p ++ (rest ++ x)) (p.length + rest.length) u₀ = .ok p.length u) :
    msgTurn (.build debug) flds (casesOf (.build debug) flds)
        ⟨varintBytes g.tag ++ p ++ rest ++ x, (varintBytes g.tag ++ p ++ rest).length, n, vs,
          bits⟩ =
      .next ⟨rest ++ x, rest.length, n + (varintBytes g.tag ++ p).length, vs.set i u,
        bits.set i⟩ := by
  have hnum : Numeral 32 (varintBytes g.tag) := by
    rw [varintBytes_eq htag]
    exact numeral_encode htag
  have hown : ownCase (casesOf (.build debug) flds) (value (varintBytes g.tag)) =
      some ⟨g.tag, i, read⟩ := by
    rw [varintBytes_eq htag, value_encode]
    exact ownCase_of_zip hids hf hg
  have hquiet : (Machine.build debug).traps .refill = false := by
    simp [Machine.build, Machine.isAssertion]
  have hlim : (varintBytes g.tag ++ p ++ rest).length =
      (varintBytes g.tag).length + (p.length + rest.length) := by
    rw [List.length_append, List.length_append, Nat.add_assoc]
  have hleft : (varintBytes g.tag).length + (p.length + rest.length) -
      ((varintBytes g.tag).length + p.length) = rest.length := by omega
  rw [hlim, List.append_assoc (_ ++ p), msgTurn_own hnum (by omega) hown (by rw [hquiet]; rfl)
    (by rw [Nat.add_sub_cancel_left]; exact hread _), hleft, List.length_append]

/-- The loop over the fields, entered where the encoding of field `i` starts. The fields before
are settled, and none of the others was read. -/
theorem ends_fields (hids : (ids flds).Nodup) (hflds : Compile flds)
    (hback : ∀ f ∈ flds, f.Restores debug) {fs : List Fld} {ws : List Val} {i : ℕ}
    (hfs : flds.drop i = fs) (hws : us.drop i = ws) (hfit : Fld.fits fs ws = true)
    (hlt : (encodings fs d ws).length < 2 ^ 32) (hlen : vs.length = flds.length)
    (hbits : ∀ j, i ≤ j → bits j = false)
    (hdone : ∀ j, j < i → Settled flds us d vs bits j) :
    ∃ vs' bits', Loop.Ends (msgTurn (.build debug) flds (casesOf (.build debug) flds))
        ⟨encodings fs d ws ++ x, (encodings fs d ws).length, n, vs, bits⟩
        (.ok (n + (encodings fs d ws).length) (vs', bits')) ∧
      vs'.length = flds.length ∧ ∀ j, Settled flds us d vs' bits' j := by
  -- along the fields that are still to come
  induction fs generalizing ws i n vs bits with
  | nil =>
    refine ⟨vs, bits, .done msgTurn_end, hlen, ?_⟩
    intro j
    by_cases hj : j < i
    · exact hdone j hj
    · intro f u hf
      have hi : flds.length ≤ i := List.drop_eq_nil_iff.mp hfs
      rw [List.getElem?_eq_none (by omega)] at hf
      cases hf
  | cons f fs ih =>
    obtain ⟨u, ws, rfl, hu, hfit⟩ := Fld.fits_cons.mp hfit
    have hf : flds[i]? = some f := by rw [← List.head?_drop, hfs]; rfl
    have hui : us[i]? = some u := by rw [← List.head?_drop, hws]; rfl
    have hfs' : flds.drop (i + 1) = fs := by rw [← List.tail_drop, hfs]; rfl
    have hws' : us.drop (i + 1) = ws := by rw [← List.tail_drop, hws]; rfl
    have hmem := List.mem_of_getElem? hf
    have hi : i < vs.length := by
      rw [hlen]
      exact (List.getElem?_eq_some_iff.mp hf).1
    rw [encodings_cons, List.length_append] at hlt
    rw [encodings_cons]
    rcases hback f hmem d u hu (by omega) with hout | ⟨g, read, p, hg, henc, hread⟩
    · -- nothing was written of the field: the loop is where it was
      rw [hout.1, List.nil_append]
      apply ih hfs' hws' hfit (by omega) hlen (fun j hj => hbits j (by omega))
      exact settled_left_out hf hui (hbits i le_rfl) hout hdone
    · have hgf := (List.of_mem_zip hg).1
      have hother := next_other (x := x) (d := d) hids hflds hback hfs hgf hfit (by omega)
      have htag : g.tag < 2 ^ 32 := mkTag_lt ((hflds f hmem).2 g hgf) _
      have hlen' : (vs.set i u).length = flds.length := by rw [List.length_set, hlen]
      obtain ⟨vs', bits', hends, hsize, hset⟩ := ih hfs' hws' hfit (by omega) hlen'
        (fun j hj => settled_bits hbits hj) (settled_set hf hui hi hdone)
      refine ⟨vs', bits', ?_, hsize, hset⟩
      have hsum : n + (varintBytes g.tag ++ p ++ encodings fs d ws).length =
          n + (varintBytes g.tag ++ p).length + (encodings fs d ws).length := by
        rw [List.length_append, Nat.add_assoc]
      rw [henc, hsum]
      exact .next (field_turn hids hf hg htag fun u₀ => hread u₀ _ _ hother) hends

theorem length_of_fits (h : Fld.fits flds us = true) : us.length = flds.length := by
  induction flds generalizing us with
  | nil => simpa [Fld.fits] using h
  | cons f fs ih =>
    obtain ⟨u, us, rfl, -, h⟩ := Fld.fits_cons.mp h
    rw [List.length_cons, List.length_cons, ih h]

/-- The fields of a message are read to the values they were written from. -/
theorem readFields_encodings (hids : (ids flds).Nodup) (hflds : Compile flds)
    (hplain : ∀ f ∈ flds, f.params.pCheck = none) (hback : ∀ f ∈ flds, f.Restores debug)
    (hfit : Fld.fits flds us = true) (hlt : (encodings flds d us).length < 2 ^ 32)
    (hlen : vs.length = flds.length) (skipLen : Bool) :
    readFields (.build debug) skipLen flds (casesOf (.build debug) flds) (encodings flds d us ++ x)
      (encodings flds d us).length vs = .ok (encodings flds d us).length us := by
  have hnone : ∀ j, j < 0 → Settled flds us d vs (fun _ => false) j := fun j hj =>
    absurd hj (Nat.not_lt_zero j)
  obtain ⟨vs', bits', hends, hlen', hset⟩ := ends_fields (x := x) (n := 0) hids hflds hback
    List.drop_zero List.drop_zero hfit hlt hlen (fun _ _ => rfl) hnone
  have hloop := loop_msgTurn hends le_rfl
  have hexam : examSubFlds (.build debug) bits' 0 flds vs' = .ok 0 us :=
    exam_settled hplain (length_of_fits hfit) List.drop_zero hlen' rfl fun j _ => hset j
  unfold readFields
  rw [hloop, Nat.zero_add]
  dsimp only
  rw [MapField.build_check (Or.inr (by simp)), hexam]

end Message

section Read

variable {p : Params} {flds : List Fld} {cases : List Case} {bs x : List UInt8} {us : List Val}

theorem length_start (p : Params) (flds : List Fld) (u : Val) :
    (if p.pOptional && !u.isSome then Fld.fresh flds
      else (p.constVal u).membersOf flds.length).length = flds.length := by
  split_ifs
  · exact Sim.length_fresh flds
  · exact Sim.length_membersOf _ _

/-- A message without a length in front of it takes all of its region. -/
theorem messageRead_whole {m : Machine} (h : ∀ vs, vs.length = flds.length →
      readFields m true flds cases bs bs.length vs = .ok bs.length us) (u : Val) :
    messageRead m true p flds cases bs bs.length u = .ok bs.length (p.wrap (.msg us)) := by
  unfold messageRead
  simp only [if_true]
  rw [h _ (length_start p flds u)]

/-- A message behind its length. -/
theorem messageRead_delimited (h : ∀ x vs, vs.length = flds.length →
      readFields (.build debug) false flds cases (bs ++ x) bs.length vs = .ok bs.length us)
    (hlt : bs.length < 2 ^ 32) (u : Val) :
    Payload (messageRead (.build debug) false p flds cases) u (delimited bs)
      (p.wrap (.msg us)) := by
  intro x lim hlim
  rw [delimited, List.length_append] at hlim
  have hregion : (Machine.build debug).region (bs ++ x) bs.length = bs ++ x := rfl
  unfold messageRead
  simp only [Bool.false_eq_true, if_false]
  rw [delimited, List.append_assoc, readVarintUint_append (numeral_encode hlt) (by omega),
    value_encode]
  unfold Res.andThen
  dsimp only
  rw [if_neg (by omega), List.drop_left, hregion, h x _ (length_start p flds u), List.length_append]
  rfl

end Read

theorem message_readsBack {id : ℕ} {p : Params} {flds : List Fld}
    (hf : (Fld.message id p flds).wf = true) (hplain : ∀ f ∈ flds, f.params.pCheck = none)
    (hback : ∀ f ∈ flds, f.Restores debug) : (Fld.message id p flds).ReadsBack debug := by
  intro d u hu hv hlt u₀
  have hv : p.hasVal d u = true := hv
  have hfit : (Fld.message id p flds).fitsVal (p.constVal u) = true :=
    Fld.fitsVal_constVal (f := .message id p flds) (d := d) hu hv
  obtain ⟨us, hus, hfit⟩ : ∃ us, p.constVal u = .msg us ∧ Fld.fits flds us = true := by
    cases hc : p.constVal u <;> simp [hc, Fld.fitsVal] at hfit
    exact ⟨_, rfl, hfit⟩
  have henc : (Fld.message id p flds).encoding true false d u =
      delimited (encodings flds us us) := by
    simp [Fld.wire, writeTag, hus, Val.members]
  have hval : p.wrap (.msg us) = u := by rw [← hus, Params.wrap_constVal hv]
  rw [henc, delimited, List.length_append] at hlt
  have hread : Payload (messageRead (.build debug) false p flds (casesOf (.build debug) flds)) u₀
      (delimited (encodings flds us us)) (p.wrap (.msg us)) := by
    apply messageRead_delimited _ (by omega)
    intro x vs hlen
    exact readFields_encodings (ids_nodup_of_wf hf) (compile_of_wf hf) hplain hback hfit (by omega)
      hlen false
  rw [hval, ← henc] at hread
  exact hread

theorem Fld.Simple.pCheck {f : Fld} (h : f.Simple) : f.params.pCheck = none := by
  have hplain := h.plain f f.self_mem_subs
  cases f with
  | repeated elem c p =>
    cases c with
    | fixed n array => exact hplain.1
    | _ => exact hplain.2.2
  | _ => exact hplain.2.2

/-- The reader of a field takes back what its writer puts out. -/
theorem reads_back (debug : Bool) (f : Fld) (hf : f.Simple) :
    (f.isSingle = true → f.ReadsBack debug) ∧ f.Restores debug := by
  have hsingle : ∀ f : Fld, f.Simple → f.isSingle = true → f.ReadsBack debug →
      (f.isSingle = true → f.ReadsBack debug) ∧ f.Restores debug := fun f hf hs hback =>
    ⟨fun _ => hback, single_restores hs (hf.plain f f.self_mem_subs) hback⟩
  -- a message needs the second part of its fields, a run and a oneof the first part of theirs
  induction f using Fld.ind with
  | varint id ty c p =>
    obtain rfl : c = ty.tar := by simpa [Fld.hasWireType] using Fld.all_self hf.typed
    exact hsingle _ hf rfl varint_readsBack
  | fixed id ty c p =>
    obtain rfl : c = ty.tar := by simpa [Fld.hasWireType] using Fld.all_self hf.typed
    exact hsingle _ hf rfl fixed_readsBack
  | bytes id b p => exact hsingle _ hf rfl bytes_readsBack
  | message id p flds ih =>
    apply hsingle _ hf rfl
    apply message_readsBack hf.wf
    · intro f hff
      exact (hf.message f hff).pCheck
    · intro f hff
      exact (ih f hff (hf.message f hff)).2
  | repeated elem c p ih =>
    have he := (Fld.wf_repeated hf.wf).2.1
    refine ⟨fun hs => by simp [Fld.isSingle] at hs, ?_⟩
    apply repeated_restores hf.wf (hf.plain _ (Fld.self_mem_subs _))
    · exact Fld.all_self hf.elem.typed
    · exact (ih hf.elem).1 (isSingle_of_isElement he)
  | oneof p mems ih =>
    refine ⟨fun hs => by simp [Fld.isSingle] at hs, ?_⟩
    apply oneof_restores hf.wf
    intro g hg
    exact (ih g hg (hf.member g hg)).1 (isSingle_of_isElement ((Fld.wf_oneof hf.wf).2.1 g hg))

namespace Schema

/-- `write` puts out the encoding. -/
theorem write_eq (s : Schema) (hs : s.fld.wireTyped = true) (skipLen : Bool) {v : Val}
    (hv : s.fld.fitsVal v = true) (hlt : (s.fld.encoding true skipLen [] v).length < 2 ^ 32) :
    s.fld.write true skipLen v = some (s.fld.encoding true skipLen [] v) := by
  obtain ⟨hsize, hwrite⟩ := Fld.encoding_faithful s hs skipLen hv hlt
  have hout := congrArg Out.bytes (hwrite [])
  rw [List.append_nil] at hout
  unfold Fld.write Fld.doWrite
  dsimp only
  rw [hout, hsize, if_pos rfl]

/-- The encoding of a message, with or without its length, is read into any object. -/
theorem read_encoding (s : Schema) (debug skipLen : Bool) (hsimple : s.fld.Simple) {us : List Val}
    (hfit : Fld.fits s.flds us = true)
    (hlt : (s.fld.encoding true skipLen [] (.msg us)).length < 2 ^ 32) (d : Val) :
    messageRead (.build debug) skipLen .null s.flds (casesOf (.build debug) s.flds)
        (s.fld.encoding true skipLen [] (.msg us))
        (s.fld.encoding true skipLen [] (.msg us)).length d =
      .ok (s.fld.encoding true skipLen [] (.msg us)).length (.msg us) := by
  have hfields : ∀ (skipLen : Bool), (encodings s.flds us us).length < 2 ^ 32 → ∀ x vs,
      vs.length = s.flds.length →
      readFields (.build debug) skipLen s.flds (casesOf (.build debug) s.flds)
        (encodings s.flds us us ++ x) (encodings s.flds us us).length vs =
      .ok (encodings s.flds us us).length us := fun skipLen hlt x vs hlen =>
    readFields_encodings s.ids_nodup s.compile (fun f hf => (hsimple.message f hf).pCheck)
      (fun f hf => (reads_back debug f (hsimple.message f hf)).2) hfit hlt hlen skipLen
  cases skipLen with
  | true =>
    have henc : s.fld.encoding true true [] (.msg us) = encodings s.flds us us := rfl
    rw [henc] at hlt ⊢
    apply messageRead_whole
    intro vs hlen
    have hread := hfields true hlt [] vs hlen
    rwa [List.append_nil] at hread
  | false =>
    have henc : s.fld.encoding true false [] (.msg us) = delimited (encodings s.flds us us) := rfl
    rw [henc] at hlt ⊢
    have hshort : (encodings s.flds us us).length < 2 ^ 32 := by
      rw [delimited, List.length_append] at hlt
      omega
    have hread := messageRead_delimited (p := .null) (hfields false hshort) hshort d [] _ le_rfl
    rwa [List.append_nil] at hread

/-- What `write` puts out for a value, `full_read` takes back into any object. -/
theorem fullRead_write (s : Schema) (debug skipLen : Bool) (hs : s.fld.wireTyped = true)
    (hplain : ∀ g ∈ s.fld.subs, g.Plain) (v : Val) (hv : s.fld.fitsVal v = true)
    (hlt : (s.fld.encoding true skipLen [] v).length < 2 ^ 32) :
    ∃ b, s.fld.write true skipLen v = some b ∧
      ∀ d, s.fullRead (.build debug) skipLen b d = .ok b.length v := by
  have hsimple : s.fld.Simple := ⟨s.wf, hs, hplain⟩
  have hcheck : s.check = none := hsimple.pCheck
  obtain ⟨us, rfl, hfit⟩ : ∃ us, v = .msg us ∧ Fld.fits s.flds us = true := by
    cases v <;> simp [fld, topLevel, Fld.fitsVal] at hv
    exact ⟨_, rfl, hv⟩
  refine ⟨_, s.write_eq hs skipLen hv hlt, fun d => ?_⟩
  unfold fullRead read
  rw [s.read_encoding debug skipLen hsimple hfit hlt d, hcheck]
  dsimp only
  rw [if_pos rfl]

end Schema

/-- A schema with fields of all kinds: optional and defaulted ones, a message in a message, packed
and unpacked runs, a map and a oneof. -/
def allKinds : Schema where
  flds := [.varint 1 .int32 .i32 .null,
    .varint 2 .sint64 .i64 ⟨true, none, none, none, none⟩,
    .varint 3 .bool .bool ⟨false, some (.int 0), none, none, none⟩,
    .fixed 4 .fixed64 .u64 .null,
    .message 5 .null [.message 1 .null [.bytes 1 ⟨none, 1, false⟩ .null]],
    .repeated (.fixed 6 .sfixed32 .i32 .null) (.vec true) .null,
    .repeated (.bytes 7 ⟨none, 1, false⟩ .null) (.vec false) .null,
    .repeated (.message 8 .null [.varint 1 .int32 .i32 .null, .bytes 2 ⟨none, 1, false⟩ .null])
      (.map MapField.intOrder) .null,
    .oneof .null [.varint 9 .uint64 .u64 .null, .bytes 10 ⟨none, 1, false⟩ .null]]
  check := none
  wf := by decide

def allKindsVal : Val :=
  .msg [.int (-5), .some (.int 3), .int 0, .int 7, .msg [.msg [.bytes [65]]],
    .list [.int 1, .int (-2)], .list [.bytes [66], .bytes []],
    .list [.msg [.int 1, .bytes [67]], .msg [.int 2, .bytes []]], .oneof 2 (.bytes [68])]

theorem allKinds_plain : ∀ g ∈ allKinds.fld.subs, g.Plain := by
  simp [allKinds, Schema.fld, topLevel, Fld.subs, Fld.subsOf, Fld.Plain, Fld.params, Params.null]

theorem fullRead_write_allKinds :
    ∃ b, allKinds.fld.write true true allKindsVal = some b ∧
      ∀ d, allKinds.fullRead (.build false) true b d = .ok b.length allKindsVal :=
  allKinds.fullRead_write false true (by decide) allKinds_plain allKindsVal (by decide +kernel)
    (by decide +kernel)

end Jkl.Pb
