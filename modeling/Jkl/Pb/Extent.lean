import Jkl.Pb.Sizing

/-! How much of the buffer a write needs and how much of it there is. The sums of the two passes
are kept apart here and do not wrap around. -/
namespace Jkl.Pb
open Base128

/-- The bytes the first pass counts for a value, and the bytes the second one puts out. -/
@[ext]
structure Extent where
  counted : ℕ
  taken : ℕ
deriving DecidableEq, Repr

namespace Extent

/-- Both passes agree on these bytes. -/
def exact (n : ℕ) : Extent := ⟨n, n⟩

def append (e e' : Extent) : Extent := ⟨e.counted + e'.counted, e.taken + e'.taken⟩

def sum : List Extent → Extent
  | [] => exact 0
  | e :: es => e.append (sum es)

/-- A payload behind its length, which is the count in 32 bits. -/
def behindLen (skipLen : Bool) (e : Extent) : Extent :=
  if skipLen then e else (exact (varintWireSize false .u32 (sizeT e.counted))).append e

end Extent

namespace Fld

/- The extent of a field. A string, and a range that `memcpy` copies, is cut to its 32-bit
length by both passes. -/
mutual
def extent : Fld → (skipTag skipLen : Bool) → (d : List Val) → (u : Val) → Extent
  | varint id ty c p, skipTag, _, d, u =>
    if skipTag || p.hasVal d u then
      (Extent.exact (tagWireSize skipTag id .varint)).append
        ⟨if (varint id ty c p).isStaticLen then 1
          else varintWireSize ty.zigzag c (p.constVal u).toInt,
          varintWireSize ty.zigzag ty.tar (ty.tar.cast (p.constVal u).toInt)⟩
    else .exact 0
  | fixed id ty _ p, skipTag, _, d, u =>
    if skipTag || p.hasVal d u then .exact (tagWireSize skipTag id ty.wireType + ty.size)
    else .exact 0
  | bytes id b p, skipTag, _, d, u =>
    if (bytes id b p).hasVal d u then
      (Extent.exact (tagWireSize skipTag id .lenDlm)).append
        (Extent.behindLen false (.exact (sizeT ((bytes id b p).constVal u).toBytes.length)))
    else .exact 0
  | message id p flds, skipTag, skipLen, d, u =>
    if skipTag || p.hasVal d u then
      (Extent.exact (tagWireSize skipTag id .lenDlm)).append
        (Extent.behindLen skipLen (extents flds (p.constVal u).members (p.constVal u).members))
    else .exact 0
  | repeated elem c _, skipTag, _, _, u =>
    let elems := Extent.sum (u.elems.map (extent elem elem.isPacked false []))
    if elem.isPacked then
      (Extent.exact (tagWireSize skipTag elem.id .lenDlm)).append
        (Extent.behindLen false (if elem.sameAsWireLayout c then
          .exact (sizeT (elem.objectBytes u.elems).length) else elems))
    else elems
  | oneof _ mems, _, _, _, u =>
    match u.active with
    | (0, _) => .exact 0
    | (i + 1, m) => extentAt mems i m
def extents : List Fld → (d us : List Val) → Extent
  | [], _, _ => .exact 0
  | f :: fs, d, us => (extent f false false d (us.headD .none)).append (extents fs d us.tail)
def extentAt : List Fld → ℕ → Val → Extent
  | [], _, _ => .exact 0
  | f :: _, 0, m => extent f false false [] m
  | _ :: fs, i + 1, m => extentAt fs i m
end

end Fld

theorem sizeT_add_sizeT (m n : ℕ) : sizeT (m + sizeT n) = sizeT (m + n) := Nat.add_mod_mod ..

theorem sizeT_sizeT (n : ℕ) : sizeT (sizeT n) = sizeT n := Nat.mod_mod ..

theorem length_appendVarint_sizeT (n : ℕ) :
    (appendVarint false .u32 (sizeT n)).length = varintWireSize false .u32 (sizeT n) :=
  length_appendVarint ..

/-- The first pass counts in 32 bits, and the second takes its slots and puts out so many bytes. -/
structure Measured (size : ℕ × List ℕ) (write : List ℕ → Out) (e : Extent) : Prop where
  size_eq : size.1 = sizeT e.counted
  length_eq : ∀ lc, (write (size.2 ++ lc)).bytes.length = e.taken
  lc_eq : ∀ lc, (write (size.2 ++ lc)).lc = lc

namespace Measured

variable {size size' : ℕ × List ℕ} {write write' : List ℕ → Out} {e e' : Extent}

theorem raw {n : ℕ} {bs : List UInt8} (hn : n = sizeT e.counted) (hbs : bs.length = e.taken) :
    Measured (n, []) (Out.raw bs) e :=
  ⟨hn, fun _ => hbs, fun _ => rfl⟩

theorem append (h : Measured size write e) (h' : Measured size' write' e') :
    Measured (sizeT (size.1 + size'.1), size.2 ++ size'.2) (fun lc => (write lc).andThen write')
      (e.append e') := by
  have hlc : ∀ lc, (write (size.2 ++ size'.2 ++ lc)).lc = size'.2 ++ lc := by
    intro lc
    rw [List.append_assoc]
    exact h.lc_eq _
  constructor
  · show sizeT (size.1 + size'.1) = sizeT (e.counted + e'.counted)
    rw [h.size_eq, h'.size_eq, sizeT_add_sizeT, add_comm, sizeT_add_sizeT, add_comm]
  · intro lc
    show ((write (size.2 ++ size'.2 ++ lc)).andThen write').bytes.length = e.taken + e'.taken
    simp only [Out.andThen, hlc, List.length_append, h'.length_eq, Nat.add_right_cancel_iff]
    rw [List.append_assoc]
    exact h.length_eq _
  · intro lc
    show ((write (size.2 ++ size'.2 ++ lc)).andThen write').lc = lc
    simp only [Out.andThen, hlc, h'.lc_eq]

theorem elems {sizes : Val → ℕ × List ℕ} {w : Val → List ℕ → Out} {ext : Val → Extent}
    {vs : List Val} (h : ∀ v ∈ vs, Measured (sizes v) (w v) (ext v)) :
    Measured (wireSizes sizes vs) (writeElems w vs) (Extent.sum (vs.map ext)) := by
  induction vs with
  | nil => exact raw rfl rfl
  | cons v vs ih =>
    have hv := h v (by simp)
    have hvs := ih fun x hx => h x (by simp [hx])
    exact hv.append hvs

/-- A length in a slot of the cache. -/
theorem lenCached {payload : ℕ → List ℕ → Out} {n : ℕ} (h : Measured size (payload size.1) e)
    (hn : n = sizeT (e.behindLen false).counted) :
    Measured (n, size.1 :: size.2) (Out.lenCached payload) (e.behindLen false) := by
  refine ⟨hn, fun lc => ?_, fun lc => ?_⟩
  · simp only [Out.lenCached, List.cons_append, List.headD_cons, List.tail_cons, List.length_append,
      h.length_eq]
    rw [h.size_eq, length_appendVarint_sizeT]
    rfl
  · simp only [Out.lenCached, List.cons_append, List.headD_cons, List.tail_cons, h.lc_eq]

/-- A length that is known beforehand. -/
theorem lenStatic {len n : ℕ} (h : Measured (len, []) write e)
    (hn : n = sizeT (e.behindLen false).counted) :
    Measured (n, []) (Out.lenStatic len write) (e.behindLen false) := by
  have hlen : len = sizeT e.counted := h.size_eq
  refine ⟨hn, fun lc => ?_, fun lc => ?_⟩
  · have hw := h.length_eq lc
    simp only [List.nil_append] at hw
    simp only [Out.lenStatic, Out.raw, Out.andThen, List.nil_append, List.length_append, hw, hlen,
      length_appendVarint_sizeT]
    rfl
  · exact h.lc_eq lc

theorem tagged {n : ℕ} {slots : List ℕ} {tag : List UInt8} {k : ℕ} (h : Measured (n, slots) write e)
    (htag : tag.length = k) {t : ℕ} (ht : t = sizeT ((Extent.exact k).append e).counted) :
    Measured (t, slots) (fun lc => (Out.raw tag lc).andThen write) ((Extent.exact k).append e) := by
  refine ⟨ht, fun lc => ?_, fun lc => ?_⟩
  · have hw := h.length_eq lc
    simp only [] at hw
    simp only [Out.raw, Out.andThen, List.length_append, hw, htag]
    rfl
  · exact h.lc_eq lc

end Measured

/-- The size of a delimited payload, from its 32-bit length. -/
theorem lenDlmWireSize_extent (skipTag skipLen : Bool) (id : ℕ) {len : ℕ} {e : Extent}
    (h : len = sizeT e.counted) :
    lenDlmWireSize skipTag skipLen id len =
      sizeT ((Extent.exact (tagWireSize skipTag id .lenDlm)).append (e.behindLen skipLen)).counted := by
  subst h
  rw [lenDlmWireSize]
  cases skipLen with
  | true =>
    simp only [if_true, add_zero, sizeT_add_sizeT]
    rfl
  | false =>
    simp only [Bool.false_eq_true, if_false, sizeT_add_sizeT, Extent.behindLen, Extent.append,
      Extent.exact]
    rw [add_assoc]

theorem tagWireSize_le (skipTag : Bool) (id : ℕ) (wt : WireType) : tagWireSize skipTag id wt ≤ 10 := by
  unfold tagWireSize
  split_ifs
  · omega
  · rw [varintWireSize_eq (by decide)]
    exact length_encode_le (by omega) (lt_trans (varintUint_lt _ _ _) (by norm_num))

theorem varintWireSize_le (zigzag : Bool) (c : CInt) (x : ℤ) : varintWireSize zigzag c x ≤ 10 := by
  by_cases hc : c = .bool
  · simp [varintWireSize, hc]
  · rw [varintWireSize_eq hc]
    exact length_encode_le (by omega) (lt_trans (varintUint_lt _ _ _) (by norm_num))

namespace Fld

theorem varint_measured {id : ℕ} {ty : VarintTy} {c : CInt} {p : Params} {skipTag : Bool}
    (ht : skipTag = true → p.isOptional = false) {d : List Val} {u : Val} :
    Measured ((varint id ty c p).wireSize skipTag false d u)
      ((varint id ty c p).writeImpl skipTag false d u) ((varint id ty c p).extent skipTag false d u) := by
  rcases hasVal_cases ht d u with hv | ⟨hv, hs, ho⟩
  · have hw : (varint id ty c p).writeImpl skipTag false d u =
        Out.raw (writeTag skipTag id .varint ++
          appendVarint ty.zigzag ty.tar (ty.tar.cast (p.constVal u).toInt)) := by
      funext lc
      simp only [writeImpl, hv, Bool.or_true, if_true]
    have htag := tagWireSize_le skipTag id .varint
    have hval := varintWireSize_le ty.zigzag c (p.constVal u).toInt
    rw [hw]
    simp only [wireSize, extent, hv, Bool.or_true, if_true]
    split_ifs
    · apply Measured.raw
      · exact (sizeT_of_lt (by omega)).symm
      · simp only [List.length_append, length_writeTag, length_appendVarint]
        rfl
    · apply Measured.raw
      · exact (sizeT_of_lt (by omega)).symm
      · simp only [List.length_append, length_writeTag, length_appendVarint]
        rfl
  · have hst : (varint id ty c p).isStaticLen = false := by simp [isStaticLen, ho]
    have hw : (varint id ty c p).writeImpl skipTag false d u = Out.raw [] := by
      funext lc
      simp [writeImpl, hv, hs]
    rw [hw]
    simp only [wireSize, extent, hst, hv, hs, Bool.or_self, Bool.false_eq_true, if_false]
    exact Measured.raw rfl rfl

theorem fixed_measured {id : ℕ} {ty : FixedTy} {c : CInt} {p : Params} {skipTag : Bool}
    (ht : skipTag = true → p.isOptional = false) {d : List Val} {u : Val} :
    Measured ((fixed id ty c p).wireSize skipTag false d u)
      ((fixed id ty c p).writeImpl skipTag false d u) ((fixed id ty c p).extent skipTag false d u) := by
  rcases hasVal_cases ht d u with hv | ⟨hv, hs, ho⟩
  · have hw : (fixed id ty c p).writeImpl skipTag false d u =
        Out.raw (writeTag skipTag id ty.wireType ++ storeLe ty.tar (p.constVal u).toInt) := by
      funext lc
      simp only [writeImpl, hv, Bool.or_true, if_true]
    have htag := tagWireSize_le skipTag id ty.wireType
    have hsize : ty.size ≤ 8 := by cases ty <;> decide
    rw [hw]
    simp only [wireSize, extent, hv, Bool.or_true, if_true, ite_self]
    apply Measured.raw
    · exact (sizeT_of_lt (by omega)).symm
    · simp only [List.length_append, length_writeTag, storeLe, LittleEndian.length_store]
      rfl
  · have hst : (fixed id ty c p).isStaticLen = false := by simp [isStaticLen, ho]
    have hw : (fixed id ty c p).writeImpl skipTag false d u = Out.raw [] := by
      funext lc
      simp [writeImpl, hv, hs]
    rw [hw]
    simp only [wireSize, extent, hst, hv, hs, Bool.or_self, Bool.false_eq_true, if_false]
    exact Measured.raw rfl rfl

theorem bytes_measured {id : ℕ} {b : Buf} {p : Params} {skipTag : Bool} {d : List Val} {u : Val} :
    Measured ((bytes id b p).wireSize skipTag false d u) ((bytes id b p).writeImpl skipTag false d u)
      ((bytes id b p).extent skipTag false d u) := by
  by_cases hv : (bytes id b p).hasVal d u = true
  · generalize hbs : ((bytes id b p).constVal u).toBytes = bs
    have hw : (bytes id b p).writeImpl skipTag false d u =
        Out.raw (writeTag skipTag id .lenDlm ++ appendVarint false .u32 (sizeT bs.length) ++
          bs.take (sizeT bs.length)) := by
      funext lc
      simp only [writeImpl, hv, if_true, hbs]
    rw [hw]
    simp only [wireSize, extent, hv, if_true, hbs]
    apply Measured.raw
    · exact lenDlmWireSize_extent skipTag false id (sizeT_sizeT _).symm
    · simp only [List.length_append, length_writeTag, length_appendVarint, length_take_sizeT,
        Extent.behindLen, Extent.append, Extent.exact, sizeT_sizeT, Bool.false_eq_true, if_false,
        add_assoc]
  · have hw : (bytes id b p).writeImpl skipTag false d u = Out.raw [] := by
      funext lc
      simp [writeImpl, hv]
    rw [hw]
    simp only [wireSize, extent, hv, Bool.false_eq_true, if_false]
    exact Measured.raw rfl rfl

theorem extents_measured {fs : List Fld} {d us : List Val}
    (ih : ∀ f ∈ fs, ∀ u, f.fitsMember u = true →
      Measured (f.wireSize false false d u) (f.writeImpl false false d u) (f.extent false false d u))
    (hu : fits fs us = true) :
    Measured (subFldsLen fs d us) (writeSubs fs d us) (extents fs d us) := by
  induction fs generalizing us with
  | nil => exact Measured.raw rfl rfl
  | cons f fs ih' =>
    obtain ⟨u, vs, rfl, hf, hfs⟩ := fits_cons.mp hu
    have hone := ih f (by simp) u hf
    have hrest := ih' (fun g hg => ih g (by simp [hg])) hfs
    exact hone.append hrest

theorem extentAt_measured {fs : List Fld} {i : ℕ} {m : Val}
    (ih : ∀ f ∈ fs, f.fitsVal m = true →
      Measured (f.wireSize false false [] m) (f.writeImpl false false [] m) (f.extent false false [] m))
    (hu : fitsAt fs i m = true) :
    Measured (wireSizeAt fs i m) (writeAt fs i m) (extentAt fs i m) := by
  induction fs generalizing i with
  | nil => simp [fitsAt] at hu
  | cons f fs ih' =>
    cases i with
    | zero => exact ih f (by simp) hu
    | succ i => exact ih' (fun g hg => ih g (by simp [hg])) hu

/-- The payload of a packed field. -/
theorem writePacked_measured {elem : Fld} {c : Container} {u : Val} (he : elem.isElement = true)
    (hcount : c.count u = u.elems.length)
    (ih : ∀ v ∈ u.elems, Measured (elem.wireSize elem.isPacked false [] v)
      (elem.writeImpl elem.isPacked false [] v) (elem.extent elem.isPacked false [] v)) :
    Measured (wireSizes (elem.wireSize elem.isPacked false []) u.elems)
      (writePacked elem c u.elems (wireSizes (elem.wireSize elem.isPacked false []) u.elems).1)
      (if elem.sameAsWireLayout c then .exact (sizeT (elem.objectBytes u.elems).length)
        else Extent.sum (u.elems.map (elem.extent elem.isPacked false []))) := by
  unfold writePacked
  split_ifs with hs
  · have hst := isStaticLen_of_sameAsWireLayout hs he
    have hconst := elemsLen_eq elem hcount
    rw [if_pos hst, hcount, ← length_objectBytes hs he] at hconst
    rw [← hconst]
    apply Measured.raw
    · exact (sizeT_sizeT _).symm
    · exact length_take_sizeT _
  · exact Measured.elems ih

theorem repeated_measured {elem : Fld} {c : Container} {p : Params} {skipTag : Bool} {d : List Val}
    {u : Val} (he : elem.isElement = true) (hcount : c.count u = u.elems.length)
    (ih : ∀ v ∈ u.elems, Measured (elem.wireSize elem.isPacked false [] v)
      (elem.writeImpl elem.isPacked false [] v) (elem.extent elem.isPacked false [] v)) :
    Measured ((repeated elem c p).wireSize skipTag false d u)
      ((repeated elem c p).writeImpl skipTag false d u)
      ((repeated elem c p).extent skipTag false d u) := by
  by_cases hp : elem.isPacked = true
  · have hpay := writePacked_measured he hcount ih
    have hsum := elemsLen_eq elem hcount
    have hw : (repeated elem c p).writeImpl skipTag false d u = fun lc => _ :=
      funext fun lc => writeImpl_packed hp skipTag false d lc
    have hext : (repeated elem c p).extent skipTag false d u =
        (Extent.exact (tagWireSize skipTag elem.id .lenDlm)).append
          (Extent.behindLen false (if elem.sameAsWireLayout c then
            .exact (sizeT (elem.objectBytes u.elems).length)
            else Extent.sum (u.elems.map (elem.extent elem.isPacked false [])))) := by
      rw [extent, if_pos hp]
    rw [wireSize_packed hp hcount, hw, hext]
    generalize (if elem.sameAsWireLayout c then Extent.exact (sizeT (elem.objectBytes u.elems).length)
      else Extent.sum (u.elems.map (elem.extent elem.isPacked false []))) = e at hpay ⊢
    generalize wireSizes (elem.wireSize elem.isPacked false []) u.elems = len at hpay hsum ⊢
    obtain ⟨n, slots⟩ := len
    have hn : n = sizeT e.counted := hpay.size_eq
    have hdlm := lenDlmWireSize_extent skipTag false elem.id hn
    by_cases hst : elem.isStaticLen = true
    · rw [if_pos hst] at hsum
      have hstatic : elem.packedStaticLen c u = n := congrArg Prod.fst hsum
      obtain rfl : slots = [] := congrArg Prod.snd hsum.symm
      simp only [hst, if_true, Bool.or_false, hstatic]
      have hstat : Measured (sizeT (e.behindLen false).counted, []) _ _ := hpay.lenStatic rfl
      exact hstat.tagged (length_writeTag ..) hdlm
    · simp only [hst, Bool.or_false, Bool.false_eq_true, if_false]
      have hcached : Measured (sizeT (e.behindLen false).counted, n :: slots) _ _ :=
        Measured.lenCached hpay rfl
      exact hcached.tagged (length_writeTag ..) hdlm
  · have hw : (repeated elem c p).writeImpl skipTag false d u =
        writeElems (elem.writeImpl elem.isPacked false []) u.elems := by
      funext lc
      simp [writeImpl, hp]
    simp only [wireSize, elemsLen_eq elem hcount]
    rw [hw, if_neg hp, extent, if_neg hp]
    exact Measured.elems ih

theorem message_measured {id : ℕ} {p : Params} {flds : List Fld} {skipTag skipLen : Bool}
    (ht : skipTag = true → p.isOptional = false) {d : List Val} {u : Val}
    (ih : p.hasVal d u = true →
      Measured (subFldsLen flds (p.constVal u).members (p.constVal u).members)
        (writeSubs flds (p.constVal u).members (p.constVal u).members)
        (extents flds (p.constVal u).members (p.constVal u).members)) :
    Measured ((message id p flds).wireSize skipTag skipLen d u)
      ((message id p flds).writeImpl skipTag skipLen d u)
      ((message id p flds).extent skipTag skipLen d u) := by
  rcases hasVal_cases ht d u with hv | ⟨hv, hskip, ho⟩
  · have hsub := ih hv
    have hslots : (message id p flds).isStaticLen = true →
        (subFldsLen flds (p.constVal u).members (p.constVal u).members).2 = [] := by
      intro hst
      apply subFldsLen_snd_of_static
      simp [isStaticLen] at hst
      exact hst.2
    simp only [wireSize, extent, hv, Bool.or_true, if_true]
    have hw : (message id p flds).writeImpl skipTag skipLen d u =
        fun lc => (Out.raw (writeTag skipTag id .lenDlm) lc).andThen
          (if skipLen then writeSubs flds (p.constVal u).members (p.constVal u).members
          else if (message id p flds).isStaticLen then
            Out.lenStatic (subFldsLen flds (p.constVal u).members (p.constVal u).members).1
              (writeSubs flds (p.constVal u).members (p.constVal u).members)
          else Out.lenCached fun _ =>
            writeSubs flds (p.constVal u).members (p.constVal u).members) := by
      funext lc
      simp only [writeImpl, hv, Bool.or_true, if_true]
    rw [hw]
    generalize subFldsLen flds (p.constVal u).members (p.constVal u).members = len at hsub hslots ⊢
    generalize writeSubs flds (p.constVal u).members (p.constVal u).members = write at hsub ⊢
    generalize extents flds (p.constVal u).members (p.constVal u).members = e at hsub ⊢
    obtain ⟨n, slots⟩ := len
    have hdlm := lenDlmWireSize_extent skipTag skipLen id hsub.size_eq
    cases skipLen with
    | true =>
      have hsame : e.behindLen true = e := rfl
      rw [hsame] at hdlm ⊢
      simp only [reduceIte]
      split_ifs with hst
      · obtain rfl : slots = [] := hslots hst
        exact hsub.tagged (length_writeTag ..) hdlm
      · exact hsub.tagged (length_writeTag ..) hdlm
    | false =>
      simp only [Bool.false_eq_true, if_false]
      split_ifs with hst
      · obtain rfl : slots = [] := hslots hst
        have hstat : Measured (sizeT (e.behindLen false).counted, []) _ _ := hsub.lenStatic rfl
        exact hstat.tagged (length_writeTag ..) hdlm
      · have hcached : Measured (sizeT (e.behindLen false).counted, n :: slots)
            (Out.lenCached fun _ => write) _ :=
          @Measured.lenCached (n, slots) e (fun _ => write) _ hsub rfl
        exact hcached.tagged (length_writeTag ..) hdlm
  · have hst : (message id p flds).isStaticLen = false := by simp [isStaticLen, ho]
    have hw : (message id p flds).writeImpl skipTag skipLen d u = Out.raw [] := by
      funext lc
      simp [writeImpl, hv, hskip]
    rw [hw]
    simp only [wireSize, extent, hst, hv, hskip, Bool.or_self, Bool.false_eq_true, if_false]
    exact Measured.raw rfl rfl

/-- Both passes are what the extent says, on every value. -/
theorem measured (f : Fld) (hf : f.wf = true) (skipTag : Bool)
    (ht : skipTag = true → f.isOptional = false) (d : List Val) (u : Val)
    (hu : f.fitsMember u = true) :
    Measured (f.wireSize skipTag false d u) (f.writeImpl skipTag false d u)
      (f.extent skipTag false d u) := by
  induction f using ind generalizing skipTag d u with
  | varint id ty c p => exact varint_measured (p := p) ht
  | fixed id ty c p => exact fixed_measured (p := p) ht
  | bytes id b p => exact bytes_measured
  | message id p flds ih =>
    have hwf := wf_message hf
    apply message_measured (p := p) ht
    intro hv
    exact extents_measured (fun f hmem v hfit => ih f hmem (hwf f hmem) false (by simp) _ v hfit)
      (members_fit hu hv)
  | repeated elem c p ih =>
    obtain ⟨hwf, he, -⟩ := wf_repeated hf
    have hfit := fitsVal_repeated hf hu
    apply repeated_measured he (count_eq hfit)
    intro v hv
    apply ih hwf elem.isPacked (fun _ => isOptional_of_isElement he) [] v
    exact elems_fitMember he hfit v hv
  | oneof p mems ih =>
    obtain ⟨hwf, helem, -⟩ := wf_oneof hf
    have hfit := fitsVal_oneof hf hu
    rcases active_fits hfit with ⟨m, hact⟩ | ⟨i, m, hact, hm⟩
    · have hw : (oneof p mems).writeImpl skipTag false d u = Out.raw [] := by
        funext lc
        simp [writeImpl, hact]
      rw [hw, wireSize, extent, hact]
      exact Measured.raw rfl rfl
    · have hw : (oneof p mems).writeImpl skipTag false d u = writeAt mems i m := by
        funext lc
        simp [writeImpl, hact]
      rw [hw]
      simp only [wireSize, extent, hact]
      refine extentAt_measured ?_ hm
      intro f hmem hfv
      have hmfit : f.fitsMember m = true := by
        rw [fitsMember_of_isElement (helem f hmem)]
        exact hfv
      exact ih f hmem (hwf f hmem) false (by simp) [] m hmfit

end Fld

/-- The passes agree on the extent, and it is the length of the encoding unless both are too long
for 32 bits. -/
structure Matches (e : Extent) (len : ℕ) : Prop where
  counted_eq : e.counted = e.taken
  taken_eq : e.taken < 2 ^ 32 ∨ len < 2 ^ 32 → e.taken = len

namespace Matches

variable {e e' : Extent} {len len' : ℕ}

theorem exact (n : ℕ) : Matches (.exact n) n := ⟨rfl, fun _ => rfl⟩

theorem append (h : Matches e len) (h' : Matches e' len') : Matches (e.append e') (len + len') := by
  constructor
  · exact congrArg₂ _ h.counted_eq h'.counted_eq
  · intro hlt
    have hone := h.taken_eq
    have htwo := h'.taken_eq
    simp only [Extent.append] at hlt ⊢
    omega

theorem lt_iff (h : Matches e len) : e.taken < 2 ^ 32 ↔ len < 2 ^ 32 := by
  have heq := h.taken_eq
  omega

theorem sum {ext : Val → Extent} {wire : Val → List UInt8} {vs : List Val}
    (h : ∀ v ∈ vs, Matches (ext v) (wire v).length) :
    Matches (Extent.sum (vs.map ext)) (vs.map wire).flatten.length := by
  induction vs with
  | nil => exact exact 0
  | cons v vs ih =>
    rw [List.map_cons, List.map_cons, List.flatten_cons, List.length_append]
    have hv := h v (by simp)
    have hvs := ih fun x hx => h x (by simp [hx])
    exact hv.append hvs

/-- The length in front of a payload that is too long is wrong, but the payload is there. -/
theorem behindLen {payload : List UInt8} (h : Matches e payload.length) :
    Matches (e.behindLen false) (delimited payload).length := by
  constructor
  · exact congrArg₂ _ rfl h.counted_eq
  · intro hlt
    have heq := h.taken_eq
    simp only [Extent.behindLen, Extent.append, Extent.exact, Bool.false_eq_true, if_false, delimited,
      List.length_append] at hlt ⊢
    have hpay : e.taken = payload.length := heq (by omega)
    have hshort : payload.length < 2 ^ 32 := by omega
    rw [h.counted_eq, hpay, sizeT_of_lt hshort, varintWireSize_u32 hshort]

end Matches

namespace Fld

theorem extents_match {fs : List Fld} {d us : List Val}
    (ih : ∀ f ∈ fs, ∀ u, f.fitsMember u = true →
      Matches (f.extent false false d u) (f.wire copied false false d u).length)
    (hu : fits fs us = true) : Matches (extents fs d us) (wires copied fs d us).length := by
  induction fs generalizing us with
  | nil => exact Matches.exact 0
  | cons f fs ih' =>
    obtain ⟨u, vs, rfl, hf, hfs⟩ := fits_cons.mp hu
    rw [wires, List.length_append]
    have hone := ih f (by simp) u hf
    have hrest := ih' (fun g hg => ih g (by simp [hg])) hfs
    exact hone.append hrest

theorem extentAt_match {fs : List Fld} {i : ℕ} {m : Val}
    (ih : ∀ f ∈ fs, f.fitsVal m = true →
      Matches (f.extent false false [] m) (f.wire copied false false [] m).length)
    (hu : fitsAt fs i m = true) : Matches (extentAt fs i m) (wireAt copied fs i m).length := by
  induction fs generalizing i with
  | nil => simp [fitsAt] at hu
  | cons f fs ih' =>
    cases i with
    | zero => exact ih f (by simp) hu
    | succ i => exact ih' (fun g hg => ih g (by simp [hg])) hu

theorem varint_match {id : ℕ} {ty : VarintTy} {p : Params} {skipTag : Bool}
    (ht : skipTag = true → p.isOptional = false) {d : List Val} {u : Val}
    (hu : (varint id ty ty.tar p).fitsMember u = true) :
    Matches ((varint id ty ty.tar p).extent skipTag false d u)
      ((varint id ty ty.tar p).wire copied skipTag false d u).length := by
  rcases hasVal_cases ht d u with hv | ⟨hv, hs, -⟩
  · have hfit : (varint id ty ty.tar p).fitsVal (p.constVal u) = true :=
      fitsVal_constVal (f := varint id ty ty.tar p) (d := d) hu hv
    have hcast : ty.tar.cast (p.constVal u).toInt = (p.constVal u).toInt := by
      apply CInt.cast_of_inRange
      unfold fitsVal at hfit
      cases hc : p.constVal u <;> simp_all [Val.toInt]
    simp only [extent, wire, hv, Bool.or_true, if_true, List.length_append, length_writeTag,
      length_appendVarint, hcast]
    apply (Matches.exact _).append
    refine ⟨?_, fun _ => rfl⟩
    split_ifs with hst
    · have hbool : ty.tar = .bool := by
        simp [isStaticLen] at hst
        exact hst.2
      rw [hbool]
      rfl
    · rfl
  · simp only [extent, wire, hv, hs, Bool.or_self, Bool.false_eq_true, if_false]
    exact Matches.exact 0

/-- Where the C++ types are the wire types, the extent of a value is the length of its encoding. -/
theorem extent_match (f : Fld) (hf : f.wf = true) (hs : f.wireTyped = true) (skipTag : Bool)
    (ht : skipTag = true → f.isOptional = false) (d : List Val) (u : Val)
    (hu : f.fitsMember u = true) :
    Matches (f.extent skipTag false d u) (f.wire copied skipTag false d u).length := by
  induction f using ind generalizing skipTag d u with
  | varint id ty c p =>
    obtain rfl : c = ty.tar := by simpa [wireTyped, all, hasWireType] using hs
    exact varint_match (p := p) ht hu
  | fixed id ty c p =>
    rw [extent, wire]
    split_ifs
    · rw [List.length_append, length_writeTag, storeLe, LittleEndian.length_store]
      exact Matches.exact _
    · exact Matches.exact 0
  | bytes id b p =>
    rw [extent, wire]
    split_ifs
    · rw [List.length_append, length_writeTag]
      apply (Matches.exact _).append
      apply Matches.behindLen
      rw [copied, length_take_sizeT]
      exact Matches.exact _
    · exact Matches.exact 0
  | message id p flds ih =>
    have hwf := wf_message hf
    have hty : ∀ f ∈ flds, f.wireTyped = true := by
      simp only [wireTyped, all, Bool.and_eq_true, alls_eq_true] at hs
      exact hs.2
    rw [extent, wire]
    rcases hasVal_cases (p := p) ht d u with hv | ⟨hv, hskip, -⟩
    · simp only [hv, Bool.or_true, if_true, Bool.false_eq_true, if_false]
      rw [List.length_append, length_writeTag]
      apply (Matches.exact _).append
      apply Matches.behindLen
      exact extents_match
        (fun f hmem v hfit => ih f hmem (hwf f hmem) (hty f hmem) false (by simp) _ v hfit)
        (members_fit hu hv)
    · simp only [hv, hskip, Bool.or_self, Bool.false_eq_true, if_false]
      exact Matches.exact 0
  | repeated elem c p ih =>
    obtain ⟨hwf, he, -⟩ := wf_repeated hf
    have hty : elem.wireTyped = true := by
      simp only [wireTyped, all, Bool.and_eq_true] at hs
      exact hs.2
    have hfit := fitsVal_repeated hf hu
    have helems : Matches (Extent.sum (u.elems.map (elem.extent elem.isPacked false [])))
        (u.elems.map (elem.wire copied elem.isPacked false [])).flatten.length := by
      apply Matches.sum
      intro v hv
      apply ih hwf hty elem.isPacked (fun _ => isOptional_of_isElement he) [] v
      exact elems_fitMember he hfit v hv
    rw [extent, wire]
    split_ifs with hp hl
    · rw [List.length_append, length_writeTag]
      apply (Matches.exact _).append
      apply Matches.behindLen
      rw [copied, length_take_sizeT]
      exact Matches.exact _
    · rw [List.length_append, length_writeTag]
      apply (Matches.exact _).append
      exact helems.behindLen
    · exact helems
  | oneof p mems ih =>
    obtain ⟨hwf, helem, -⟩ := wf_oneof hf
    have hty : ∀ f ∈ mems, f.wireTyped = true := by
      simp only [wireTyped, all, Bool.and_eq_true, alls_eq_true] at hs
      exact hs.2
    have hfit := fitsVal_oneof hf hu
    rw [extent, wire]
    rcases active_fits hfit with ⟨m, hact⟩ | ⟨i, m, hact, hm⟩
    · rw [hact]
      exact Matches.exact 0
    · rw [hact]
      refine extentAt_match ?_ hm
      intro f hmem hfv
      have hmfit : f.fitsMember m = true := by
        rw [fitsMember_of_isElement (helem f hmem)]
        exact hfv
      exact ih f hmem (hwf f hmem) (hty f hmem) false (by simp) [] m hmfit

end Fld

/-- `write` stores nothing behind the buffer that it sized. -/
def Schema.StoresFit (s : Schema) (skipLen : Bool) (v : Val) : Prop :=
  (s.fld.doWrite true skipLen v).out.bytes.length ≤ (s.fld.doWrite true skipLen v).total

/-- The extent of a value of a message type. -/
def Schema.extent (s : Schema) (skipLen : Bool) (v : Val) : Extent := s.fld.extent true skipLen [] v

theorem Schema.measured (s : Schema) (skipLen : Bool) {v : Val} (hv : s.fld.fitsVal v = true) :
    (s.fld.doWrite true skipLen v).total = sizeT (s.extent skipLen v).counted ∧
      (s.fld.doWrite true skipLen v).out.bytes.length = (s.extent skipLen v).taken := by
  have hfit : (topLevel s.check s.flds).fitsMember v = true := hv
  have hm : Measured (s.fld.wireSize true skipLen [] v) (s.fld.writeImpl true skipLen [] v)
      (s.extent skipLen v) := by
    apply Fld.message_measured (fun _ => rfl)
    intro hhas
    exact Fld.extents_measured
      (fun f hmem u hu => Fld.measured f (s.wf_flds f hmem) false (by simp) _ u hu)
      (Fld.members_fit hfit hhas)
  have hlen := hm.length_eq []
  rw [List.append_nil] at hlen
  exact ⟨hm.size_eq, hlen⟩

theorem Schema.extent_match (s : Schema) (hs : s.fld.wireTyped = true) (skipLen : Bool) {v : Val}
    (hv : s.fld.fitsVal v = true) :
    Matches (s.extent skipLen v) (s.fld.wire copied true skipLen [] v).length := by
  have hfit : (topLevel s.check s.flds).fitsMember v = true := hv
  have hty : ∀ f ∈ s.flds, f.wireTyped = true := by
    simp only [Fld.wireTyped, Schema.fld, topLevel, Fld.all, Bool.and_eq_true, Fld.alls_eq_true] at hs
    exact hs.2
  have hsub : Matches (Fld.extents s.flds v.members v.members)
      (Fld.wires copied s.flds v.members v.members).length := by
    have hmem : Fld.fits s.flds v.members = true := @Fld.members_fit 0 _ s.flds [] v hfit rfl
    exact Fld.extents_match
      (fun f hmem u hu => Fld.extent_match f (s.wf_flds f hmem) (hty f hmem) false (by simp) _ u hu)
      hmem
  rw [Schema.extent, Schema.fld, topLevel, Fld.extent, Fld.wire]
  simp only [Bool.true_or, if_true]
  rw [List.length_append, length_writeTag]
  apply (Matches.exact _).append
  cases skipLen with
  | true => exact hsub
  | false => exact hsub.behindLen

/-- A write stays in its buffer exactly where the bytes it takes are no more than what is left of
the count in 32 bits; where the C++ types are the wire types, exactly where the encoding is shorter
than `pb_size_t` can say. -/
theorem Schema.storesFit_iff (s : Schema) (skipLen : Bool) (v : Val) (hv : s.fld.fitsVal v = true) :
    (s.StoresFit skipLen v ↔
      (s.extent skipLen v).taken ≤ (s.extent skipLen v).counted % 2 ^ 32) ∧
    (s.fld.wireTyped = true →
      (s.StoresFit skipLen v ↔ (s.fld.wire copied true skipLen [] v).length < 2 ^ 32)) := by
  obtain ⟨htotal, hbytes⟩ := s.measured skipLen hv
  have hfit : s.StoresFit skipLen v ↔
      (s.extent skipLen v).taken ≤ (s.extent skipLen v).counted % 2 ^ 32 := by
    rw [Schema.StoresFit, htotal, hbytes, sizeT]
  refine ⟨hfit, fun hs => ?_⟩
  have hmatch := s.extent_match hs skipLen hv
  rw [hfit, hmatch.counted_eq, ← hmatch.lt_iff]
  omega

/-- `pb_int32<"n", 1>` over a `uint32_t`. -/
def int32OverUint32 : Schema := ⟨[.varint 1 .int32 .u32 .null], none, by decide⟩

theorem storesFit_int32OverUint32 :
    (int32OverUint32.StoresFit true (.msg [.int 7]) ↔
      (int32OverUint32.extent true (.msg [.int 7])).taken ≤
        (int32OverUint32.extent true (.msg [.int 7])).counted % 2 ^ 32) ∧
    (int32OverUint32.fld.wireTyped = true →
      (int32OverUint32.StoresFit true (.msg [.int 7]) ↔
        (int32OverUint32.fld.wire copied true true [] (.msg [.int 7])).length < 2 ^ 32)) :=
  int32OverUint32.storesFit_iff true (.msg [.int 7]) (by decide)

theorem Extent.sum_replicate (n : ℕ) (e : Extent) :
    Extent.sum (List.replicate n e) = ⟨n * e.counted, n * e.taken⟩ := by
  induction n with
  | zero => simp [Extent.sum, Extent.exact]
  | succ n ih =>
    rw [List.replicate_succ, Extent.sum, ih, Extent.append]
    congr 1 <;> ring

theorem wf_texts :
    (topLevel none [.repeated (.bytes 1 ⟨none, 1, false⟩ .null) (.vec false) .null]).wf = true := by
  decide

/-- `pb_repeated(pb_string<"s", 1>())` over an `std::vector<std::string>`. -/
def texts : Schema :=
  ⟨[.repeated (.bytes 1 ⟨none, 1, false⟩ .null) (.vec false) .null], none, wf_texts⟩

/-- Equal strings. -/
def copies (n : ℕ) (bs : List UInt8) : Val := .msg [.list (List.replicate n (.bytes bs))]

theorem fits_copies (n : ℕ) (bs : List UInt8) : texts.fld.fitsVal (copies n bs) = true := by
  have hall : (List.replicate n (Val.bytes bs)).all
      (Fld.fitsVal (.bytes 1 ⟨none, 1, false⟩ .null)) = true := by
    rw [List.all_eq_true]
    intro v hv
    rw [List.eq_of_mem_replicate hv]
    exact decide_eq_true (Nat.mod_one _)
  change (true && (List.replicate n (Val.bytes bs)).all
    (Fld.fitsVal (.bytes 1 ⟨none, 1, false⟩ .null)) && true) = true
  rw [hall]
  rfl

theorem extent_copies (n : ℕ) (bs : List UInt8) :
    texts.extent true (copies n bs) =
      ⟨n * (1 + (varintWireSize false .u32 (sizeT bs.length) + sizeT bs.length)),
        n * (1 + (varintWireSize false .u32 (sizeT bs.length) + sizeT bs.length))⟩ := by
  have hone : Fld.extent (.bytes 1 ⟨none, 1, false⟩ .null) false false [] (.bytes bs) =
      .exact (1 + (varintWireSize false .u32 (sizeT bs.length) + sizeT bs.length)) := by
    have htag : tagWireSize false 1 .lenDlm = 1 := by decide
    rw [Fld.extent, htag]
    change (Extent.exact 1).append (Extent.behindLen false (.exact (sizeT bs.length))) = _
    simp only [Extent.behindLen, Extent.append, Extent.exact, sizeT_sizeT, Bool.false_eq_true, if_false]
  change (Extent.exact 0).append ((Extent.sum ((List.replicate n (Val.bytes bs)).map
    (Fld.extent (.bytes 1 ⟨none, 1, false⟩ .null) false false []))).append (Extent.exact 0)) = _
  rw [List.map_replicate, hone, Extent.sum_replicate]
  simp only [Extent.append, Extent.exact, zero_add, add_zero]

/-- 65536 strings of 65536 bytes each wrap the count around, and a `uint32_t` in an `int32` field
is counted as five bytes and written as ten. -/
theorem not_storesFit :
    (texts.fld.fitsVal (copies 65536 (List.replicate 65536 97)) = true ∧
      ¬ texts.StoresFit true (copies 65536 (List.replicate 65536 97))) ∧
    int32OverUint32.fld.fitsVal (.msg [.int 0xffffffff]) = true ∧
      ¬ int32OverUint32.StoresFit true (.msg [.int 0xffffffff]) := by
  refine ⟨⟨fits_copies _ _, ?_⟩, by decide +kernel, ?_⟩
  · obtain ⟨htotal, hbytes⟩ := texts.measured true (fits_copies 65536 (List.replicate 65536 97))
    have hsize : varintWireSize false .u32 (sizeT 65536) = 3 := by decide +kernel
    rw [Schema.StoresFit, htotal, hbytes, extent_copies, List.length_replicate, hsize]
    decide +kernel
  · unfold Schema.StoresFit
    decide +kernel

end Jkl.Pb
