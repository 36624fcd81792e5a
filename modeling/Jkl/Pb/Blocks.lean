import Jkl.Pb.Runs
import Jkl.Pb.Safety

/-! The turns of the loop over the fields of a message as blocks of records. A block is a field of
the schema, a run of one, or a field that no case matches. -/
namespace Jkl.Pb
open Base128

variable {m : Machine}

theorem mkTag_eq (id : ℕ) (wt : WireType) : mkTag id wt = wt.code + 8 * id := by
  have hcode : wt.code < 2 ^ 3 := by cases wt <;> decide
  rw [mkTag, Nat.or_comm, or_shiftLeft hcode]
  norm_num

theorem mkTag_mod (id : ℕ) (wt : WireType) : mkTag id wt % 8 = wt.code := by
  have hcode : wt.code < 8 := by cases wt <;> decide
  rw [mkTag_eq]
  omega

theorem mkTag_lt {id : ℕ} (h : id < 2 ^ 29) (wt : WireType) : mkTag id wt < 2 ^ 32 := by
  have hcode : wt.code < 8 := by cases wt <;> decide
  rw [mkTag_eq]
  omega

/-- The fields of a message that compiles can be told apart by their tags, which fit their type. -/
theorem id_lt_of_wf {id : ℕ} {p : Params} {flds : List Fld} (h : (Fld.message id p flds).wf = true)
    {f g : Fld} (hf : f ∈ flds) (hg : g ∈ f.injectedFlds) : g.id < 2 ^ 29 := by
  have hwf : (Fld.message id p flds).wellFormed = true := Fld.all_self h
  simp only [Fld.wellFormed, Bool.and_eq_true, List.all_eq_true, decide_eq_true_eq] at hwf
  exact (hwf.2 g (List.mem_flatMap.mpr ⟨f, hf, hg⟩)).2

section Fields

theorem framed_run {read : Reader} {tag : ℕ} {form : List UInt8 → Prop}
    (h : Framed read form) (hform : ∀ p, form p → PayloadForm (tag % 8) p) :
    Framed read (RunForm tag) :=
  h.mono fun p hp => runForm_of_payload (hform p hp)

theorem within_eq_ok {r : Rd} {f : Val → Val} {n : ℕ} {v : Val} (h : r.within f = .ok n v) :
    ∃ w, r = .ok n w ∧ v = f w := by
  cases r with
  | ok k w =>
    cases h
    exact ⟨w, rfl, rfl⟩
  | err e => nomatch h
  | stop x => nomatch h

theorem oneofRead_framed {read : Reader} {form : List UInt8 → Prop} (h : Framed read form)
    (mem : Fld) (I : ℕ) : Framed (oneofRead mem I read) form := by
  intro w u n v hr
  obtain ⟨v', hv', rfl⟩ := within_eq_ok hr
  exact h hv'

/-- A field that is neither repeated nor a oneof has one payload. -/
theorem single_framed (hm : m.Strict) {f : Fld} (hf : f.wf = true) (hs : f.isSingle = true) :
    Framed (f.reader m) (PayloadForm (f.tag % 8)) := by
  rw [Fld.tag, mkTag_mod]
  cases f with
  | varint id ty c p => exact varintRead_framed hm ty c p
  | fixed id ty c p =>
    apply (fixedRead_framed ty c p).mono
    intro q hq
    cases ty <;> exact hq
  | bytes id b p => exact bytesRead_framed hm b p
  | message id p flds =>
    have hcs : ∀ c ∈ casesOf m flds, Reader.Bounded m c.read := casesOf_bounded fun f hf' =>
      injectedFldRead_bounded f (Fld.wf_message hf f hf')
    apply (messageRead_framed hm p flds hcs).mono
    intro q hq
    exact hq.mono fun _ _ => trivial
  | repeated elem c p => simp [Fld.isSingle] at hs
  | oneof p mems => simp [Fld.isSingle] at hs

theorem isSingle_of_isElement {f : Fld} (h : f.isElement = true) : f.isSingle = true := by
  cases f with
  | repeated | oneof => simp [Fld.isElement] at h
  | _ => rfl

theorem repeated_framed (hm : m.Strict) {elem : Fld} {c : Container} {p : Params}
    (hf : (Fld.repeated elem c p).wf = true) (hid : elem.id < 2 ^ 29) :
    Framed (repeatedRead m elem c (elem.reader m)) (RunForm (Fld.repeated elem c p).tag) := by
  obtain ⟨hwf, he, -⟩ := Fld.wf_repeated hf
  have htag : (Fld.repeated elem c p).tag % 8 = 2 := mkTag_mod _ _
  cases hp : elem.isPacked with
  | true =>
    apply framed_run (packedRead_framed hm hp c)
    intro q hq
    rw [htag]
    exact hq
  | false =>
    have hwire : elem.wireType = .lenDlm := by simpa [Fld.isPacked] using hp
    have hsame : elem.tag = (Fld.repeated elem c p).tag := by
      show mkTag elem.id elem.wireType = mkTag elem.id .lenDlm
      rw [hwire]
    have hread := single_framed hm hwf (isSingle_of_isElement he)
    have hrun := unpackedRead_framed hm c hread (progress_of_isElement he) hp
      (mkTag_lt hid elem.wireType)
    rw [← hsame]
    exact hrun

theorem mem_oneofReads {mems : List Fld} (hs : ∀ f ∈ mems, f.isSingle = true) {I : ℕ} {g : Fld}
    {read : Reader} (h : (g, read) ∈ mems.zip (oneofReads I mems (Fld.injectedFldReads m mems))) :
    g ∈ mems ∧ ∃ J, read = oneofRead g J (g.reader m) := by
  induction mems generalizing I with
  | nil => simp at h
  | cons f fs ih =>
    simp only [Fld.injectedFldReads, oneofReads, List.zip_cons_cons, List.mem_cons,
      Prod.mk.injEq] at h
    rcases h with ⟨rfl, rfl⟩ | h
    · exact ⟨List.mem_cons_self, I, rfl⟩
    · obtain ⟨hg, hread⟩ := ih (fun f hf => hs f (List.mem_cons_of_mem _ hf)) h
      exact ⟨List.mem_cons_of_mem _ hg, hread⟩

/-- What each case of a field takes. -/
theorem fld_framed (hm : m.Strict) {f : Fld} (hf : f.wf = true)
    (hid : ∀ g ∈ f.injectedFlds, g.id < 2 ^ 29) {g : Fld} {read : Reader}
    (hg : (g, read) ∈ f.injectedFlds.zip (f.injectedFldRead m)) :
    Framed read (RunForm g.tag) := by
  have hsingle : f.isSingle = true → Framed read (RunForm g.tag) := by
    intro hs
    rw [Fld.injectedFlds_single hs, Fld.injectedFldRead_single hs] at hg
    obtain ⟨rfl, rfl⟩ : g = f ∧ read = f.reader m := by simpa using hg
    exact framed_run (single_framed hm hf hs) fun _ hp => hp
  cases f with
  | repeated elem c p =>
    obtain ⟨rfl, rfl⟩ : g = .repeated elem c p ∧ read = repeatedRead m elem c (elem.reader m) := by
      simpa [Fld.injectedFlds, Fld.injectedFldRead, Fld.reader] using hg
    exact repeated_framed hm hf (hid (.repeated elem c p) (by simp [Fld.injectedFlds]))
  | oneof p mems =>
    obtain ⟨hwf, helem, -⟩ := Fld.wf_oneof hf
    have hs : ∀ f ∈ mems, f.isSingle = true := fun f hf => isSingle_of_isElement (helem f hf)
    obtain ⟨hmem, J, rfl⟩ := mem_oneofReads hs hg
    have hread := oneofRead_framed (single_framed hm (hwf g hmem) (hs g hmem)) g J
    exact framed_run hread fun _ hp => hp
  | _ => exact hsingle rfl

end Fields

section Turns

variable {flds : List Fld} {vs : List Val} {bits : Bits} {n : ℕ}

/-- Fields that compile. -/
def Compile (flds : List Fld) : Prop :=
  ∀ f ∈ flds, f.wf = true ∧ ∀ g ∈ f.injectedFlds, g.id < 2 ^ 29

theorem compile_of_wf {id : ℕ} {p : Params} (h : (Fld.message id p flds).wf = true) :
    Compile flds := fun f hf =>
  ⟨Fld.wf_message h f hf, fun _ hg => id_lt_of_wf h hf hg⟩

theorem Schema.compile (s : Schema) : Compile s.flds := compile_of_wf s.wf

theorem case_framed (hm : m.Strict) (hflds : Compile flds) {c : Case}
    (hc : c ∈ casesOf m flds) :
    Framed c.read (RunForm c.tag) := by
  obtain ⟨j, f, g, hj, -, htag, hg⟩ := mem_casesFrom hc
  obtain ⟨hwf, hid⟩ := hflds f (List.mem_of_getElem? hj)
  rw [htag]
  exact fld_framed hm hwf hid hg

theorem skipUnknown_framed (hm : m.Strict) {tag : ℕ} {w : List UInt8} {k : ℕ}
    (h : skipUnknown m tag w w.length = .ok k ()) :
    ∃ p x, w = p ++ x ∧ p.length = k ∧ PayloadForm (tag % 8) p := by
  have hbytes : ∀ i, skipBytes w.length i = .ok k () →
      ∃ p x, w = p ++ x ∧ p.length = k ∧ k = i := by
    intro i hi
    unfold skipBytes at hi
    split_ifs at hi with hle
    cases hi
    exact ⟨w.take k, w.drop k, by simp, by simp [hle], rfl⟩
  unfold skipUnknown at h
  generalize tag % 8 = wt at h ⊢
  split at h
  · rw [skipVarint_eq] at h
    cases hr : readVarintUint 64 w w.length with
    | ok i u =>
      obtain ⟨p, x, hw, hp, -, hi, -⟩ := readVarintUint_eq_ok.mp hr
      rw [hr] at h
      cases h
      exact ⟨p, x, hw, hi.symm, hp⟩
    | err e =>
      rw [hr] at h
      nomatch h
    | stop x =>
      rw [hr] at h
      nomatch h
  · obtain ⟨p, x, hw, hlen, rfl⟩ := hbytes 8 h
    exact ⟨p, x, hw, hlen, hlen⟩
  · cases hr : readVarintUint 32 w w.length with
    | ok i len =>
      obtain ⟨q, x', rfl, hq, -, rfl, rfl⟩ := readVarintUint_eq_ok.mp hr
      simp only [hr] at h
      obtain ⟨n', hskip, rfl⟩ := advance_eq_ok h
      unfold skipBytes at hskip
      split_ifs at hskip with hle
      cases hskip
      rw [List.length_append] at hle
      have hbody : (x'.take (value q)).length = value q := by
        rw [List.length_take]
        omega
      refine ⟨q ++ x'.take (value q), x'.drop (value q), by simp, by simp [hbody], ?_⟩
      exact ⟨q, x'.take (value q), rfl, hq, hbody.symm, trivial⟩
    | err e => simp [hr] at h
    | stop x => simp [hr] at h
  · obtain ⟨p, x, hw, hlen, rfl⟩ := hbytes 4 h
    exact ⟨p, x, hw, hlen, hlen⟩
  · have htrap := (check_eq_ok h).1
    simp [hm.wireType] at htrap

/-- The state behind what a turn takes. -/
theorem move_append (q p x : List UInt8) (n : ℕ) (vs vs' : List Val) (bits bits' : Bits) :
    MsgState.move ⟨q ++ (p ++ x), (q ++ (p ++ x)).length, n, vs, bits⟩ (q.length + p.length)
        vs' bits' =
      ⟨x, x.length, n + (q.length + p.length), vs', bits'⟩ := by
  rw [MsgState.move, drop_append_add, length_append_sub]

/-- A field whose reader goes well is the first of a block. -/
theorem own_block (hm : m.Strict) (hflds : Compile flds) {q w : List UInt8} (hq : Numeral 32 q)
    {c : Case} {u v : Val} {k : ℕ} (hown : ownCase (casesOf m flds) (value q) = some c)
    (hr : c.read w w.length u = .ok k v) :
    ∃ rs p x, w = p ++ x ∧ p.length = k ∧ Rec.join rs = q ++ p := by
  obtain ⟨hc, htag⟩ := ownCase_eq_some hown
  obtain ⟨p, x, rfl, rfl, q', rs, rfl, hq', -⟩ := case_framed hm hflds hc hr
  have hform : PayloadForm (value q % 8) q' := by
    rw [← htag]
    exact hq'
  refine ⟨⟨q, q', hq, hform⟩ :: rs, q' ++ Rec.join rs, x, rfl, rfl, ?_⟩
  rw [Rec.join_cons, Rec.bytes, List.append_assoc]

/-- A turn that goes on takes a block: the records of a field of the schema, one that failed with
`tag_mismatch`, or one that is not of the schema. -/
theorem msgTurn_block (hm : m.Strict) (hflds : Compile flds) {w : List UInt8} {s' : MsgState}
    (h : msgTurn m flds (casesOf m flds) ⟨w, w.length, n, vs, bits⟩ = .next s') :
    ∃ rs x n' vs' bits', w = Rec.join rs ++ x ∧ s' = ⟨x, x.length, n', vs', bits'⟩ := by
  obtain ⟨k, tag, i, hlim, htag, hs⟩ := msgTurn_next h
  dsimp only at hs htag
  obtain ⟨q, w', rfl, hq, -, rfl, rfl⟩ := readVarintUint_eq_ok.mp htag
  have hrest : (q ++ w').length - q.length = w'.length := by simp
  rw [List.drop_left, hrest] at hs
  have hskipped : ∀ {vs' bits'}, skipUnknown m (value q) w' w'.length = .ok i () →
      s' = MsgState.move ⟨q ++ w', (q ++ w').length, n, vs, bits⟩ (q.length + i) vs' bits' →
      ∃ rs x n' vs' bits', q ++ w' = Rec.join rs ++ x ∧ s' = ⟨x, x.length, n', vs', bits'⟩ := by
    intro vs' bits' hskip hs'
    obtain ⟨p, x, rfl, rfl, hform⟩ := skipUnknown_framed hm hskip
    rw [move_append] at hs'
    exact ⟨[⟨q, p, hq, hform⟩], x, _, _, _, by simp [Rec.bytes], hs'⟩
  rcases hs with ⟨c, v, hown, -, hr, hs'⟩ | ⟨c, v, -, -, -, hskip, hs'⟩ | ⟨-, -, hskip, hs'⟩
  · obtain ⟨rs, p, x, rfl, rfl, hjoin⟩ := own_block hm hflds hq hown hr
    rw [move_append] at hs'
    exact ⟨rs, x, _, _, _, by rw [hjoin, List.append_assoc], hs'⟩
  · exact hskipped hskip hs'
  · exact hskipped hskip hs'

end Turns

end Jkl.Pb
