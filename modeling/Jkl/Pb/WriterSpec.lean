import Jkl.Pb.Encoding
import Mathlib.Tactic.Linarith

/-! The writer puts out the encoding: the first pass measures it, and the second takes the slots
of the first one by one, each in front of as many bytes as it says. -/
namespace Jkl.Pb
open Base128

/-- The second pass puts out `e` and takes exactly these slots, each of which is right. -/
def WritesAs (slots : List ℕ) (write : List ℕ → Out) (e : List UInt8) : Prop :=
  ∀ lc, write (slots ++ lc) = ⟨e, lc, slots.map fun n => (n, n)⟩

/-- The two passes over one value that is `e` on the wire. -/
structure Faithful (size : ℕ × List ℕ) (write : List ℕ → Out) (e : List UInt8) : Prop where
  size_eq : size.1 = e.length
  write_eq : WritesAs size.2 write e

theorem WritesAs.append {slots slots' : List ℕ} {write write' : List ℕ → Out} {e e' : List UInt8}
    (h : WritesAs slots write e) (h' : WritesAs slots' write' e') :
    WritesAs (slots ++ slots') (fun lc => (write lc).andThen write') (e ++ e') := by
  intro lc
  have hw := h (slots' ++ lc)
  simp only [List.append_assoc, Out.andThen, hw, h' lc, List.map_append]

theorem sizeT_of_lt {n : ℕ} (h : n < 2 ^ 32) : sizeT n = n := Nat.mod_eq_of_lt h

theorem length_writeTag (skipTag : Bool) (id : ℕ) (wt : WireType) :
    (writeTag skipTag id wt).length = tagWireSize skipTag id wt := by
  unfold writeTag tagWireSize
  split_ifs
  · rfl
  · rw [varintWireSize_eq (by decide), varintBytes, appendVarint_eq (by decide)]

namespace Faithful

variable {size size' : ℕ × List ℕ} {write write' : List ℕ → Out} {e e' : List UInt8}

theorem raw {n : ℕ} (h : n = e.length) : Faithful (n, []) (Out.raw e) e :=
  ⟨h, fun _ => rfl⟩

theorem append (h : Faithful size write e) (h' : Faithful size' write' e')
    (hlt : (e ++ e').length < 2 ^ 32) :
    Faithful (sizeT (size.1 + size'.1), size.2 ++ size'.2) (fun lc => (write lc).andThen write')
      (e ++ e') := by
  constructor
  · rw [h.size_eq, h'.size_eq, ← List.length_append]
    exact sizeT_of_lt hlt
  · exact h.write_eq.append h'.write_eq

theorem elems {sizes : Val → ℕ × List ℕ} {w : Val → List ℕ → Out} {wire : Val → List UInt8}
    {vs : List Val} (h : ∀ v ∈ vs, (wire v).length < 2 ^ 32 → Faithful (sizes v) (w v) (wire v))
    (hlt : (vs.map wire).flatten.length < 2 ^ 32) :
    Faithful (wireSizes sizes vs) (writeElems w vs) (vs.map wire).flatten := by
  induction vs with
  | nil => exact raw rfl
  | cons v vs ih =>
    simp only [List.map_cons, List.flatten_cons, List.length_append] at hlt
    have hv := h v (by simp) (by omega)
    have hvs := ih (fun x hx => h x (by simp [hx])) (by omega)
    exact hv.append hvs (by rwa [List.length_append])

/-- A length prefix and what it is the length of. -/
theorem lenCached (payload : ℕ → List ℕ → Out) (h : Faithful size (payload e.length) e)
    (hlt : e.length < 2 ^ 32) :
    Faithful ((delimited e).length, size.1 :: size.2) (Out.lenCached payload) (delimited e) := by
  refine ⟨rfl, fun lc => ?_⟩
  simp only [Out.lenCached, List.cons_append, List.headD_cons, List.tail_cons, h.size_eq,
    h.write_eq lc, appendVarint_u32 hlt, delimited, List.map_cons]

theorem lenStatic {n : ℕ} (h : Faithful (n, []) write e) (hlt : e.length < 2 ^ 32) :
    Faithful ((delimited e).length, []) (Out.lenStatic n write) (delimited e) := by
  refine ⟨rfl, fun lc => ?_⟩
  have hs : n = e.length := h.size_eq
  have hw := h.write_eq lc
  rw [List.nil_append] at hw ⊢
  simp only [Out.lenStatic, Out.raw, Out.andThen, hw, hs, appendVarint_u32 hlt, delimited]
  rfl

/-- A tag in front of a payload, whatever the size pass calls the sum. -/
theorem tagged {n : ℕ} {slots : List ℕ} {tag : List UInt8} (h : Faithful (e.length, slots) write e)
    (hn : n = (tag ++ e).length) :
    Faithful (n, slots) (fun lc => (Out.raw tag lc).andThen write) (tag ++ e) := by
  refine ⟨hn, fun lc => ?_⟩
  simp only [Out.andThen, Out.raw, h.write_eq lc]
  rfl

end Faithful

theorem lenDlmWireSize_eq (skipTag skipLen : Bool) (id : ℕ) {e : List UInt8}
    (h : (writeTag skipTag id .lenDlm ++ if skipLen then e else delimited e).length < 2 ^ 32) :
    lenDlmWireSize skipTag skipLen id e.length =
      (writeTag skipTag id .lenDlm ++ if skipLen then e else delimited e).length := by
  have he : e.length < 2 ^ 32 := by
    simp only [List.length_append] at h
    split_ifs at h
    · omega
    · simp only [delimited, List.length_append] at h
      omega
  rw [← sizeT_of_lt h, lenDlmWireSize, varintWireSize_u32 he, ← length_writeTag]
  congr 1
  simp only [List.length_append]
  split_ifs
  · rfl
  · simp only [delimited, List.length_append]
    omega

namespace Fld

theorem wireSize_snd_of_static {f : Fld} (h : f.isStaticLen = true) (skipTag skipLen : Bool)
    (d : List Val) (u : Val) : (f.wireSize skipTag skipLen d u).2 = [] := by
  cases f with
  | varint => simp [wireSize, h]
  | fixed => simp [wireSize, h]
  | bytes => simp [isStaticLen] at h
  | message => simp [wireSize, h]
  | repeated elem c p =>
    have he : elem.isStaticLen = true := by
      unfold isStaticLen at h
      split at h <;> simp_all
    simp only [wireSize, he, if_true, Bool.true_or]
    split <;> rfl
  | oneof => simp [isStaticLen] at h

theorem areStaticLen_iff {fs : List Fld} :
    areStaticLen fs = true ↔ ∀ f ∈ fs, f.isStaticLen = true := by
  induction fs with
  | nil => simp [areStaticLen]
  | cons f fs ih => simp [areStaticLen, ih]

theorem subFldsLen_snd_of_static {fs : List Fld} (h : areStaticLen fs = true) (d us : List Val) :
    (subFldsLen fs d us).2 = [] := by
  induction fs generalizing us with
  | nil => rfl
  | cons f fs ih =>
    obtain ⟨hf, hfs⟩ : f.isStaticLen = true ∧ areStaticLen fs = true := by
      simpa [areStaticLen] using h
    simp [subFldsLen, wireSize_snd_of_static hf, ih hfs]

theorem subFldsLen_congr {fs : List Fld} {d d' : List Val}
    (h : ∀ f ∈ fs, ∀ u u', f.wireSize false false d u = f.wireSize false false d' u')
    (us us' : List Val) : subFldsLen fs d us = subFldsLen fs d' us' := by
  induction fs generalizing us us' with
  | nil => rfl
  | cons f fs ih =>
    have hf := h f (by simp) (us.headD .none) (us'.headD .none)
    have hfs := ih (fun g hg => h g (by simp [hg])) us.tail us'.tail
    simp only [subFldsLen, hf, hfs]

/-- A static length does not depend on the value. -/
theorem wireSize_of_static (f : Fld) (h : f.isStaticLen = true) (skipTag skipLen : Bool)
    (d d' : List Val) (u u' : Val) :
    f.wireSize skipTag skipLen d u = f.wireSize skipTag skipLen d' u' := by
  induction f using ind generalizing skipTag skipLen d d' u u' with
  | varint => simp [wireSize, h]
  | fixed => simp [wireSize, h]
  | bytes => simp [isStaticLen] at h
  | message id p flds ih =>
    have hs : areStaticLen flds = true := by
      simp [isStaticLen] at h
      exact h.2
    have hsub : subFldsLen flds (p.constVal u).members (p.constVal u).members =
        subFldsLen flds (p.constVal u').members (p.constVal u').members :=
      subFldsLen_congr (fun f hf => ih f hf (areStaticLen_iff.mp hs f hf) false false _ _) _ _
    simp [wireSize, h, hsub]
  | repeated elem c p ih =>
    unfold isStaticLen at h
    split at h <;> simp_all [wireSize, Container.count]
  | oneof => simp [isStaticLen] at h

theorem hasVal_of_not_optional {f : Fld} (h : f.isOptional = false) (d : List Val) (u : Val) :
    f.hasVal d u = true := by
  have hp : ∀ p : Params, p.isOptional = false → p.hasVal d u = true := by
    intro p hp
    simp [Params.isOptional] at hp
    simp [Params.hasVal, hp]
  cases f with
  | bytes id b p =>
    have ho : p.pOptional = false := by
      simp [isOptional, params, Params.isOptional] at h
      exact h.1.1.1
    rw [hasVal, ho]
    exact hp p h
  | repeated => simp [isOptional] at h
  | oneof => simp [isOptional] at h
  | varint => exact hp _ h
  | fixed => exact hp _ h
  | message => exact hp _ h

/-- Where a field has a value, its member holds one of the field's type. -/
theorem fitsVal_constVal {f : Fld} {d : List Val} {u : Val} (hu : f.fitsMember u = true)
    (hv : f.hasVal d u = true) : f.fitsVal (f.constVal u) = true := by
  unfold fitsMember at hu
  unfold constVal
  split_ifs at hu ⊢ with ho
  · have hopt : u.isSome = true := by
      cases f <;> simp_all [hasVal, inOptional, Params.hasVal, params]
    have hne : u ≠ .none := by
      rintro rfl
      simp [Val.isSome] at hopt
    simpa [hne, hopt] using hu
  · exact hu

theorem inOptional_of_not_optional {f : Fld} (h : f.isOptional = false) : f.inOptional = false := by
  cases f <;> simp_all [isOptional, inOptional, params, Params.isOptional]

theorem isOptional_of_isElement {f : Fld} (h : f.isElement = true) : f.isOptional = false := by
  cases f <;> simp_all [isElement]

theorem fitsMember_of_isElement {f : Fld} (h : f.isElement = true) (u : Val) :
    f.fitsMember u = f.fitsVal u := by
  simp [fitsMember, inOptional_of_not_optional (isOptional_of_isElement h)]

end Fld

/-- A varint of a length that varies is measured as it is written. -/
def Node.Exact (n : Node) : Prop :=
  match n.fld with
  | .varint id ty c p =>
    (Fld.varint id ty c p).isStaticLen = false → (n.skipTag || p.hasVal n.d n.u) = true →
      varintWireSize ty.zigzag c (p.constVal n.u).toInt =
        (appendVarint ty.zigzag ty.tar (ty.tar.cast (p.constVal n.u).toInt)).length
  | _ => True

namespace Fld

variable {cut : List UInt8 → List UInt8}

theorem hasVal_cases {p : Params} {skipTag : Bool} (ht : skipTag = true → p.isOptional = false)
    (d : List Val) (u : Val) :
    p.hasVal d u = true ∨ p.hasVal d u = false ∧ skipTag = false ∧ p.isOptional = true := by
  by_cases ho : p.isOptional = true
  · have hskip : skipTag = false := by
      by_contra hc
      simp [ht (by simpa using hc)] at ho
    cases p.hasVal d u <;> simp [hskip, ho]
  · exact Or.inl (hasVal_of_not_optional (f := message 0 p [])
      (by simpa [isOptional, params] using ho) d u)

theorem hasVal_of_present {p : Params} {skipTag : Bool} (ht : skipTag = true → p.isOptional = false)
    {d : List Val} {u : Val} (h : (skipTag || p.hasVal d u) = true) : p.hasVal d u = true := by
  rcases hasVal_cases ht d u with hv | ⟨hv, hs, -⟩
  · exact hv
  · simp [hv, hs] at h

theorem varint_faithful {id : ℕ} {ty : VarintTy} {c : CInt} {p : Params} {skipTag : Bool}
    (ht : skipTag = true → p.isOptional = false) {d : List Val} {u : Val}
    (hn : Node.Exact ⟨varint id ty c p, skipTag, false, d, u⟩) :
    Faithful ((varint id ty c p).wireSize skipTag false d u)
      ((varint id ty c p).writeImpl skipTag false d u)
      ((varint id ty c p).wire cut skipTag false d u) := by
  have hw : (varint id ty c p).writeImpl skipTag false d u =
      Out.raw ((varint id ty c p).wire cut skipTag false d u) := by
    funext lc
    simp only [writeImpl, wire]
    split <;> rfl
  rw [hw]
  rcases hasVal_cases ht d u with hv | ⟨hv, hskip, ho⟩
  · by_cases hs : (varint id ty c p).isStaticLen = true
    · have htar : ty.tar = .bool := by
        simp [isStaticLen] at hs
        exact hs.2
      rw [wireSize, if_pos hs]
      apply Faithful.raw
      simp [wire, hv, length_writeTag, htar, appendVarint]
    · have hsize := hn (by simpa using hs) (by simp [hv])
      rw [wireSize, if_neg hs, if_pos hv]
      apply Faithful.raw
      simp [wire, hv, length_writeTag, hsize]
  · have hs : (varint id ty c p).isStaticLen = false := by simp [isStaticLen, ho]
    rw [wireSize, if_neg (by simp [hs]), if_neg (by simp [hv])]
    apply Faithful.raw
    simp [wire, hv, hskip]

theorem fixed_faithful {id : ℕ} {ty : FixedTy} {c : CInt} {p : Params} {skipTag : Bool}
    (ht : skipTag = true → p.isOptional = false) {d : List Val} {u : Val} :
    Faithful ((fixed id ty c p).wireSize skipTag false d u)
      ((fixed id ty c p).writeImpl skipTag false d u)
      ((fixed id ty c p).wire cut skipTag false d u) := by
  have hw : (fixed id ty c p).writeImpl skipTag false d u =
      Out.raw ((fixed id ty c p).wire cut skipTag false d u) := by
    funext lc
    simp only [writeImpl, wire]
    split <;> rfl
  rw [hw]
  rcases hasVal_cases ht d u with hv | ⟨hv, hskip, ho⟩
  · have hsize : (fixed id ty c p).wireSize skipTag false d u =
        (tagWireSize skipTag id ty.wireType + ty.size, []) := by
      simp [wireSize, hv]
    rw [hsize]
    apply Faithful.raw
    simp [wire, hv, length_writeTag, storeLe, FixedTy.size]
  · have hs : (fixed id ty c p).isStaticLen = false := by simp [isStaticLen, ho]
    rw [wireSize, if_neg (by simp [hs]), if_neg (by simp [hv])]
    apply Faithful.raw
    simp [wire, hv, hskip]

/-- What the writer copies is what the encoding holds, unless it is longer than `pb_size_t`. -/
def CutsAsCopied (cut : List UInt8 → List UInt8) : Prop :=
  ∀ bs, (cut bs).length < 2 ^ 32 → bs.take (sizeT bs.length) = cut bs

theorem length_take_sizeT (bs : List UInt8) : (bs.take (sizeT bs.length)).length = sizeT bs.length := by
  have := Nat.mod_le bs.length (2 ^ 32)
  rw [List.length_take]
  exact min_eq_left this

theorem bytes_faithful (hcut : CutsAsCopied cut) {id : ℕ} {b : Buf} {p : Params} {skipTag : Bool}
    {d : List Val} {u : Val} (hlt : ((bytes id b p).wire cut skipTag false d u).length < 2 ^ 32) :
    Faithful ((bytes id b p).wireSize skipTag false d u)
      ((bytes id b p).writeImpl skipTag false d u)
      ((bytes id b p).wire cut skipTag false d u) := by
  by_cases hv : (bytes id b p).hasVal d u = true
  · rw [wire, if_pos hv] at hlt ⊢
    generalize hbs : ((bytes id b p).constVal u).toBytes = bs at hlt ⊢
    have hcl : (cut bs).length < 2 ^ 32 := by
      simp only [List.length_append, delimited] at hlt
      omega
    have hcopy : bs.take (sizeT bs.length) = cut bs := hcut bs hcl
    have hlen : sizeT bs.length = (cut bs).length := by
      rw [← hcopy, length_take_sizeT]
    rw [hlen] at hcopy
    have hw : (bytes id b p).writeImpl skipTag false d u =
        Out.raw (writeTag skipTag id .lenDlm ++ delimited (cut bs)) := by
      funext lc
      simp only [writeImpl, hv, if_true, hbs, hlen, hcopy, appendVarint_u32 hcl, delimited,
        List.append_assoc]
    have hsize := lenDlmWireSize_eq skipTag false id (e := cut bs) (by simpa using hlt)
    rw [hw, wireSize, if_pos hv, hbs, hlen, hsize]
    exact Faithful.raw (by simp)
  · have hw : (bytes id b p).writeImpl skipTag false d u = Out.raw [] := by
      funext lc
      simp [writeImpl, hv]
    have he : (bytes id b p).wire cut skipTag false d u = [] := by simp [wire, hv]
    rw [hw, he, wireSize, if_neg hv]
    exact Faithful.raw rfl

theorem wires_faithful {fs : List Fld} {d us : List Val}
    (ih : ∀ f ∈ fs, ∀ u, f.fitsMember u = true → (∀ n ∈ f.nodes false false d u, n.Exact) →
      (f.wire cut false false d u).length < 2 ^ 32 →
      Faithful (f.wireSize false false d u) (f.writeImpl false false d u) (f.wire cut false false d u))
    (hu : fits fs us = true) (hn : ∀ n ∈ nodesOf fs d us, n.Exact)
    (hlt : (wires cut fs d us).length < 2 ^ 32) :
    Faithful (subFldsLen fs d us) (writeSubs fs d us) (wires cut fs d us) := by
  induction fs generalizing us with
  | nil => exact Faithful.raw rfl
  | cons f fs ih' =>
    obtain ⟨u, vs, rfl, hf, hfs⟩ := fits_cons.mp hu
    simp only [wires, List.length_append, List.headD_cons, List.tail_cons] at hlt
    have hone := ih f (by simp) u hf (fun n h => hn n (by simp [nodesOf, h])) (by omega)
    have hrest := ih' (fun g hg => ih g (by simp [hg])) hfs (fun n h => hn n (by simp [nodesOf, h]))
      (by omega)
    exact hone.append hrest (by rwa [List.length_append])

theorem wireAt_faithful {fs : List Fld} {i : ℕ} {m : Val}
    (ih : ∀ f ∈ fs, f.fitsVal m = true → (∀ n ∈ f.nodes false false [] m, n.Exact) →
      (f.wire cut false false [] m).length < 2 ^ 32 →
      Faithful (f.wireSize false false [] m) (f.writeImpl false false [] m)
        (f.wire cut false false [] m))
    (hu : fitsAt fs i m = true) (hn : ∀ n ∈ nodesAt fs i m, n.Exact)
    (hlt : (wireAt cut fs i m).length < 2 ^ 32) :
    Faithful (wireSizeAt fs i m) (writeAt fs i m) (wireAt cut fs i m) := by
  induction fs generalizing i with
  | nil => simp [fitsAt] at hu
  | cons f fs ih' =>
    cases i with
    | zero => exact ih f (by simp) hu hn hlt
    | succ i => exact ih' (fun g hg => ih g (by simp [hg])) hu hn hlt

theorem wireSizes_of_const {sizes : Val → ℕ × List ℕ} {n : ℕ} {vs : List Val}
    (h : ∀ v, sizes v = (n, [])) : wireSizes sizes vs = (sizeT (vs.length * n), []) := by
  induction vs with
  | nil => simp [wireSizes, sizeT]
  | cons v vs ih =>
    simp only [wireSizes, h v, ih, sizeT, List.length_cons, List.append_nil]
    rw [Nat.add_mod_mod, add_mul, one_mul, add_comm]

/-- The size of the elements, by whichever way it is found. -/
theorem elemsLen_eq (elem : Fld) {c : Container} {u : Val} (hc : c.count u = u.elems.length) :
    (if elem.isStaticLen = true then
        (sizeT (c.count u * (elem.wireSize elem.isPacked false [] elem.freshVal).1), [])
      else wireSizes (elem.wireSize elem.isPacked false []) u.elems) =
      wireSizes (elem.wireSize elem.isPacked false []) u.elems := by
  split_ifs with hs
  · rw [hc]
    symm
    apply wireSizes_of_const
    intro v
    apply Prod.ext
    · rw [wireSize_of_static elem hs elem.isPacked false [] [] v elem.freshVal]
    · exact wireSize_snd_of_static hs _ _ _ _
  · rfl

theorem count_eq {elem : Fld} {c : Container} {p : Params} {u : Val}
    (hu : (repeated elem c p).fitsVal u = true) : c.count u = u.elems.length := by
  unfold Container.count
  split
  · unfold fitsVal at hu
    cases u <;> simp_all [Container.holds, Val.elems]
  · rfl

theorem isStaticLen_of_sameAsWireLayout {elem : Fld} {c : Container}
    (hs : elem.sameAsWireLayout c = true) (he : elem.isElement = true) :
    elem.isStaticLen = true := by
  have ho := isOptional_of_isElement he
  cases elem <;> simp_all [sameAsWireLayout, isStaticLen, isOptional, params]

theorem length_objectBytes {elem : Fld} {c : Container} (hs : elem.sameAsWireLayout c = true)
    (he : elem.isElement = true) (vs : List Val) :
    (elem.objectBytes vs).length =
      vs.length * (elem.wireSize elem.isPacked false [] elem.freshVal).1 := by
  have ho := isOptional_of_isElement he
  have hst := isStaticLen_of_sameAsWireLayout hs he
  cases elem with
  | varint id ty c p =>
    simp [sameAsWireLayout] at hs
    simp [objectBytes, wireSize, hst, isPacked, wireType, tagWireSize, hs]
  | fixed id ty c p =>
    simp [sameAsWireLayout] at hs
    simp [objectBytes, wireSize, hst, isPacked, wireType, tagWireSize, hs]
    cases ty <;> simp [FixedTy.wireType]
  | _ => simp [sameAsWireLayout] at hs

/-- The payload of a packed field. -/
def packedPayload (cut : List UInt8 → List UInt8) (elem : Fld) (c : Container) (vs : List Val) :
    List UInt8 :=
  if elem.sameAsWireLayout c then cut (elem.objectBytes vs)
  else (vs.map (elem.wire cut elem.isPacked false [])).flatten

/-- How the payload of a packed field is written behind the length `len`. -/
def writePacked (elem : Fld) (c : Container) (vs : List Val) (len : ℕ) : List ℕ → Out :=
  if elem.sameAsWireLayout c then Out.raw ((elem.objectBytes vs).take len)
  else writeElems (elem.writeImpl elem.isPacked false []) vs

theorem writePacked_faithful (hcut : CutsAsCopied cut) {elem : Fld} {c : Container} {u : Val}
    (he : elem.isElement = true) (hcount : c.count u = u.elems.length)
    (ih : ∀ v ∈ u.elems, (elem.wire cut elem.isPacked false [] v).length < 2 ^ 32 →
      Faithful (elem.wireSize elem.isPacked false [] v) (elem.writeImpl elem.isPacked false [] v)
        (elem.wire cut elem.isPacked false [] v))
    (hlt : (packedPayload cut elem c u.elems).length < 2 ^ 32) :
    Faithful (wireSizes (elem.wireSize elem.isPacked false []) u.elems)
      (writePacked elem c u.elems (packedPayload cut elem c u.elems).length)
      (packedPayload cut elem c u.elems) := by
  unfold packedPayload at hlt ⊢
  unfold writePacked
  split_ifs at hlt ⊢ with hs
  · have hst := isStaticLen_of_sameAsWireLayout hs he
    have hconst := elemsLen_eq elem hcount
    rw [if_pos hst, hcount, ← length_objectBytes hs he] at hconst
    have hcopy := hcut _ hlt
    have hlen : sizeT (elem.objectBytes u.elems).length = (cut (elem.objectBytes u.elems)).length := by
      rw [← hcopy, length_take_sizeT]
    rw [← hconst, ← hlen, hcopy]
    exact Faithful.raw hlen
  · exact Faithful.elems ih hlt

theorem wireSize_packed {elem : Fld} {c : Container} {p : Params} {u : Val}
    (hp : elem.isPacked = true) (hcount : c.count u = u.elems.length) (skipTag skipLen : Bool)
    (d : List Val) :
    (repeated elem c p).wireSize skipTag skipLen d u =
      (lenDlmWireSize skipTag skipLen elem.id
          (wireSizes (elem.wireSize elem.isPacked false []) u.elems).1,
        if elem.isStaticLen || skipLen then
          (wireSizes (elem.wireSize elem.isPacked false []) u.elems).2
        else (wireSizes (elem.wireSize elem.isPacked false []) u.elems).1 ::
          (wireSizes (elem.wireSize elem.isPacked false []) u.elems).2) := by
  simp only [wireSize]
  rw [elemsLen_eq elem hcount, if_pos hp]

theorem writeImpl_packed {elem : Fld} {c : Container} {p : Params} {u : Val}
    (hp : elem.isPacked = true) (skipTag skipLen : Bool) (d : List Val) (lc : List ℕ) :
    (repeated elem c p).writeImpl skipTag skipLen d u lc =
      (Out.raw (writeTag skipTag elem.id .lenDlm) lc).andThen
        (if elem.isStaticLen = true then
          Out.lenStatic (elem.packedStaticLen c u)
            (writePacked elem c u.elems (elem.packedStaticLen c u))
        else Out.lenCached (writePacked elem c u.elems)) := by
  rw [writeImpl]
  simp only []
  rw [if_pos hp]
  rfl

theorem packed_faithful {elem : Fld} {c : Container} {p : Params} {skipTag : Bool} {d : List Val}
    {u : Val} (hp : elem.isPacked = true) (hcount : c.count u = u.elems.length)
    (hpay : Faithful (wireSizes (elem.wireSize elem.isPacked false []) u.elems)
      (writePacked elem c u.elems (packedPayload cut elem c u.elems).length)
      (packedPayload cut elem c u.elems))
    (hlt : (writeTag skipTag elem.id .lenDlm ++
      delimited (packedPayload cut elem c u.elems)).length < 2 ^ 32) :
    Faithful ((repeated elem c p).wireSize skipTag false d u)
      ((repeated elem c p).writeImpl skipTag false d u)
      (writeTag skipTag elem.id .lenDlm ++ delimited (packedPayload cut elem c u.elems)) := by
  have helt : (packedPayload cut elem c u.elems).length < 2 ^ 32 := by
    simp only [List.length_append, delimited] at hlt
    omega
  have hdlm := lenDlmWireSize_eq skipTag false elem.id (by simpa using hlt)
  have hsum := elemsLen_eq elem hcount
  have hw : (repeated elem c p).writeImpl skipTag false d u = fun lc => _ :=
    funext fun lc => writeImpl_packed hp skipTag false d lc
  rw [wireSize_packed hp hcount, hw]
  generalize packedPayload cut elem c u.elems = e at hpay helt hdlm ⊢
  generalize wireSizes (elem.wireSize elem.isPacked false []) u.elems = len at hpay hsum ⊢
  obtain ⟨n, slots⟩ := len
  obtain rfl : n = e.length := hpay.size_eq
  by_cases hst : elem.isStaticLen = true
  · rw [if_pos hst] at hsum
    have hstatic : elem.packedStaticLen c u = e.length := congrArg Prod.fst hsum
    obtain rfl : slots = [] := congrArg Prod.snd hsum.symm
    simp only [hst, if_true, Bool.or_false, hstatic, hdlm]
    have hstat := hpay.lenStatic helt
    exact hstat.tagged (by simp)
  · simp only [hst, Bool.or_false, Bool.false_eq_true, if_false, hdlm]
    have hcached := Faithful.lenCached (writePacked elem c u.elems) hpay helt
    exact hcached.tagged (by simp)

theorem repeated_faithful (hcut : CutsAsCopied cut) {elem : Fld} {c : Container} {p : Params}
    {skipTag : Bool} {d : List Val} {u : Val} (he : elem.isElement = true)
    (hu : (repeated elem c p).fitsVal u = true)
    (ih : ∀ v ∈ u.elems, (elem.wire cut elem.isPacked false [] v).length < 2 ^ 32 →
      Faithful (elem.wireSize elem.isPacked false [] v) (elem.writeImpl elem.isPacked false [] v)
        (elem.wire cut elem.isPacked false [] v))
    (hlt : ((repeated elem c p).wire cut skipTag false d u).length < 2 ^ 32) :
    Faithful ((repeated elem c p).wireSize skipTag false d u)
      ((repeated elem c p).writeImpl skipTag false d u)
      ((repeated elem c p).wire cut skipTag false d u) := by
  have hcount := count_eq hu
  by_cases hp : elem.isPacked = true
  · have hwire : (repeated elem c p).wire cut skipTag false d u =
        writeTag skipTag elem.id .lenDlm ++ delimited (packedPayload cut elem c u.elems) := by
      rw [wire, if_pos hp, packedPayload]
    rw [hwire] at hlt ⊢
    have helt : (packedPayload cut elem c u.elems).length < 2 ^ 32 := by
      simp only [List.length_append, delimited] at hlt
      omega
    exact packed_faithful hp hcount (writePacked_faithful hcut he hcount ih helt) hlt
  · have hw : (repeated elem c p).writeImpl skipTag false d u =
        writeElems (elem.writeImpl elem.isPacked false []) u.elems := by
      funext lc
      simp [writeImpl, hp]
    simp only [wireSize, elemsLen_eq elem hcount]
    rw [hw, if_neg hp]
    rw [wire, if_neg hp] at hlt ⊢
    exact Faithful.elems ih hlt

theorem message_faithful {id : ℕ} {p : Params} {flds : List Fld} {skipTag skipLen : Bool}
    (ht : skipTag = true → p.isOptional = false) {d : List Val} {u : Val}
    (ih : (wires cut flds (p.constVal u).members (p.constVal u).members).length < 2 ^ 32 →
      p.hasVal d u = true →
      Faithful (subFldsLen flds (p.constVal u).members (p.constVal u).members)
        (writeSubs flds (p.constVal u).members (p.constVal u).members)
        (wires cut flds (p.constVal u).members (p.constVal u).members))
    (hlt : ((message id p flds).wire cut skipTag skipLen d u).length < 2 ^ 32) :
    Faithful ((message id p flds).wireSize skipTag skipLen d u)
      ((message id p flds).writeImpl skipTag skipLen d u)
      ((message id p flds).wire cut skipTag skipLen d u) := by
  rcases hasVal_cases ht d u with hv | ⟨hv, hskip, ho⟩
  · simp only [wire, hv, Bool.or_true, if_true] at hlt ⊢
    generalize he : wires cut flds (p.constVal u).members (p.constVal u).members = e at ih hlt ⊢
    generalize hlen : subFldsLen flds (p.constVal u).members (p.constVal u).members = len at ih
    have helt : e.length < 2 ^ 32 := by
      simp only [List.length_append] at hlt
      split_ifs at hlt
      · omega
      · simp only [delimited, List.length_append] at hlt
        omega
    have hsub := ih helt hv
    have hsize := lenDlmWireSize_eq skipTag skipLen id hlt
    rw [← hsub.size_eq] at hsize
    by_cases hst : (message id p flds).isStaticLen = true
    · have hslots : len.2 = [] := by
        rw [← hlen]
        apply subFldsLen_snd_of_static
        simp [isStaticLen] at hst
        exact hst.2
      have hsub' : Faithful (len.1, []) (writeSubs flds (p.constVal u).members (p.constVal u).members) e := by
        rw [← hslots]
        exact hsub
      rw [wireSize, if_pos hst, hlen, hsize]
      by_cases hl : skipLen = true
      · have hw : (message id p flds).writeImpl skipTag skipLen d u =
            fun lc => (Out.raw (writeTag skipTag id .lenDlm) lc).andThen
              (writeSubs flds (p.constVal u).members (p.constVal u).members) := by
          funext lc
          simp only [writeImpl, hv, hl, Bool.or_true, if_true]
        rw [hw, if_pos hl]
        rw [show (len.1, ([] : List ℕ)) = (e.length, []) by rw [hsub.size_eq]] at hsub'
        exact hsub'.tagged rfl
      · have hw : (message id p flds).writeImpl skipTag skipLen d u =
            fun lc => (Out.raw (writeTag skipTag id .lenDlm) lc).andThen
              (Out.lenStatic len.1 (writeSubs flds (p.constVal u).members (p.constVal u).members)) := by
          funext lc
          simp only [writeImpl, hv, hl, hst, hlen, Bool.or_true, if_true, Bool.false_eq_true, if_false]
        rw [hw, if_neg hl]
        exact (hsub'.lenStatic helt).tagged rfl
    · rw [wireSize, if_neg hst, if_pos hv, hlen, hsize]
      by_cases hl : skipLen = true
      · have hw : (message id p flds).writeImpl skipTag skipLen d u =
            fun lc => (Out.raw (writeTag skipTag id .lenDlm) lc).andThen
              (writeSubs flds (p.constVal u).members (p.constVal u).members) := by
          funext lc
          simp only [writeImpl, hv, hl, Bool.or_true, if_true]
        have hsub' : Faithful (e.length, len.2)
            (writeSubs flds (p.constVal u).members (p.constVal u).members) e :=
          ⟨rfl, hsub.write_eq⟩
        rw [hw, if_pos hl, if_pos hl]
        exact hsub'.tagged rfl
      · have hw : (message id p flds).writeImpl skipTag skipLen d u =
            fun lc => (Out.raw (writeTag skipTag id .lenDlm) lc).andThen
              (Out.lenCached fun _ =>
                writeSubs flds (p.constVal u).members (p.constVal u).members) := by
          funext lc
          simp only [writeImpl, hv, hl, hst, Bool.or_true, if_true, Bool.false_eq_true, if_false]
        rw [hw, if_neg hl, if_neg hl]
        exact (Faithful.lenCached (fun _ => _) hsub helt).tagged rfl
  · have hs : (message id p flds).isStaticLen = false := by simp [isStaticLen, ho]
    have hw : (message id p flds).writeImpl skipTag skipLen d u = Out.raw [] := by
      funext lc
      simp [writeImpl, hv, hskip]
    have he : (message id p flds).wire cut skipTag skipLen d u = [] := by simp [wire, hv, hskip]
    rw [hw, he, wireSize, if_neg (by simp [hs]), if_neg (by simp [hv])]
    exact Faithful.raw rfl

theorem nodes_of_mem_elems {elem : Fld} {c : Container} {p : Params} {skipTag : Bool}
    {d : List Val} {u v : Val} {n : Node} (hv : v ∈ u.elems)
    (hn : n ∈ elem.nodes elem.isPacked false [] v) :
    n ∈ (repeated elem c p).nodes skipTag false d u := by
  simp only [nodes, List.mem_cons, List.mem_flatten, List.mem_map]
  exact Or.inr ⟨_, ⟨v, hv, rfl⟩, hn⟩

/-- The call for a field `f` and its member `u`, among those for the fields of a struct. -/
structure Subcall (fs : List Fld) (d us : List Val) (f : Fld) (u : Val) : Prop where
  mem : f ∈ fs
  calls : ∀ n ∈ f.nodes false false d u, n ∈ nodesOf fs d us
  fits : fits fs us = true → f.fitsMember u = true
  length_le : ∀ cut, (f.wire cut false false d u).length ≤ (wires cut fs d us).length

theorem exists_subcall {fs : List Fld} {d us : List Val} {n : Node} (hn : n ∈ nodesOf fs d us) :
    ∃ f u, Subcall fs d us f u ∧ n ∈ f.nodes false false d u := by
  induction fs generalizing us with
  | nil => simp [nodesOf] at hn
  | cons f fs ih =>
    rw [nodesOf, List.mem_append] at hn
    cases hn with
    | inl h =>
      refine ⟨f, us.headD .none, ⟨List.mem_cons_self, ?_, ?_, ?_⟩, h⟩
      · intro n h
        exact List.mem_append_left _ h
      · intro hu
        obtain ⟨u, vs, rfl, hf, -⟩ := fits_cons.mp hu
        exact hf
      · intro cut
        rw [wires, List.length_append]
        exact Nat.le_add_right _ _
    | inr h =>
      obtain ⟨g, u, hsub, hn⟩ := ih h
      refine ⟨g, u, ⟨List.mem_cons_of_mem f hsub.mem, ?_, ?_, ?_⟩, hn⟩
      · intro n h
        exact List.mem_append_right _ (hsub.calls n h)
      · intro hu
        obtain ⟨w, vs, rfl, -, hfs⟩ := fits_cons.mp hu
        exact hsub.fits hfs
      · intro cut
        rw [wires, List.length_append]
        exact (hsub.length_le cut).trans (Nat.le_add_left _ _)

/-- The calls for the active member of a oneof are those for its field. -/
theorem nodesAt_cases (fs : List Fld) (i : ℕ) (m : Val) :
    nodesAt fs i m = [] ∧ fitsAt fs i m = false ∨
      ∃ f ∈ fs, nodesAt fs i m = f.nodes false false [] m ∧ fitsAt fs i m = f.fitsVal m ∧
        ∀ cut, wireAt cut fs i m = f.wire cut false false [] m := by
  induction fs generalizing i with
  | nil => exact Or.inl ⟨rfl, by rw [fitsAt]⟩
  | cons f fs ih =>
    cases i with
    | zero =>
      refine Or.inr ⟨f, List.mem_cons_self, by rw [nodesAt], by rw [fitsAt], ?_⟩
      intro cut
      rw [wireAt]
    | succ i =>
      rw [nodesAt, fitsAt]
      simp only [wireAt]
      rcases ih i with h | ⟨g, hg, h⟩
      · exact Or.inl h
      · exact Or.inr ⟨g, List.mem_cons_of_mem f hg, h⟩

theorem subcallAt {fs : List Fld} {i : ℕ} {m : Val} (hu : fitsAt fs i m = true) :
    ∃ f ∈ fs, nodesAt fs i m = f.nodes false false [] m ∧ f.fitsVal m = true ∧
      ∀ cut, wireAt cut fs i m = f.wire cut false false [] m := by
  rcases nodesAt_cases fs i m with ⟨-, hno⟩ | ⟨f, hf, hnodes, hfit, hwire⟩
  · rw [hu] at hno
    cases hno
  · exact ⟨f, hf, hnodes, hfit ▸ hu, hwire⟩

theorem elems_fit {elem : Fld} {c : Container} {p : Params} {u : Val}
    (hu : (repeated elem c p).fitsVal u = true) : ∀ v ∈ u.elems, elem.fitsVal v = true := by
  unfold fitsVal at hu
  cases u <;> simp_all [Val.elems]

theorem elems_fitMember {elem : Fld} {c : Container} {p : Params} {u : Val}
    (he : elem.isElement = true) (hu : (repeated elem c p).fitsVal u = true) :
    ∀ v ∈ u.elems, elem.fitsMember v = true := by
  intro v hv
  rw [fitsMember_of_isElement he]
  exact elems_fit hu v hv

theorem members_fit {id : ℕ} {p : Params} {flds : List Fld} {d : List Val} {u : Val}
    (hu : (message id p flds).fitsMember u = true) (hv : p.hasVal d u = true) :
    fits flds (p.constVal u).members = true := by
  have h : (message id p flds).fitsVal (p.constVal u) = true := fitsVal_constVal (d := d) hu hv
  unfold fitsVal at h
  cases hc : p.constVal u <;> simp_all [Val.members]

theorem active_fits {p : Params} {mems : List Fld} {u : Val}
    (hu : (oneof p mems).fitsVal u = true) :
    (∃ m, u.active = (0, m)) ∨ ∃ i m, u.active = (i + 1, m) ∧ fitsAt mems i m = true := by
  unfold fitsVal at hu
  split at hu
  · exact Or.inl ⟨_, rfl⟩
  · exact Or.inr ⟨_, _, rfl, hu⟩
  · simp at hu

/-- The writer is faithful to the encoding on every value whose varints are measured as they are
written. -/
theorem wire_faithful (hcut : CutsAsCopied cut) (f : Fld) (hf : f.wf = true) (skipTag : Bool)
    (ht : skipTag = true → f.isOptional = false) (d : List Val) (u : Val)
    (hu : f.fitsMember u = true) (hn : ∀ n ∈ f.nodes skipTag false d u, n.Exact)
    (hlt : (f.wire cut skipTag false d u).length < 2 ^ 32) :
    Faithful (f.wireSize skipTag false d u) (f.writeImpl skipTag false d u)
      (f.wire cut skipTag false d u) := by
  induction f using ind generalizing skipTag d u with
  | varint id ty c p => exact varint_faithful (p := p) ht (hn _ (by simp [nodes]))
  | fixed id ty c p => exact fixed_faithful (p := p) ht
  | bytes id b p => exact bytes_faithful hcut hlt
  | message id p flds ih =>
    have hwf := wf_message hf
    apply message_faithful (p := p) ht _ hlt
    intro hsub hv
    refine wires_faithful ?_ (members_fit hu hv) ?_ hsub
    · intro f hmem v hfit hex hl
      exact ih f hmem (hwf f hmem) false (by simp) _ v hfit hex hl
    · intro n h
      exact hn n (by simp [nodes, hv, h])
  | repeated elem c p ih =>
    obtain ⟨hwf, he, -⟩ := wf_repeated hf
    have hfit := fitsVal_repeated hf hu
    apply repeated_faithful hcut he hfit _ hlt
    intro v hv hl
    apply ih hwf elem.isPacked (fun _ => isOptional_of_isElement he) [] v _ _ hl
    · exact elems_fitMember he hfit v hv
    · intro n h
      exact hn n (nodes_of_mem_elems hv h)
  | oneof p mems ih =>
    obtain ⟨hwf, helem, -⟩ := wf_oneof hf
    have hfit := fitsVal_oneof hf hu
    rcases active_fits hfit with ⟨m, hact⟩ | ⟨i, m, hact, hm⟩
    · have hw : (oneof p mems).writeImpl skipTag false d u = Out.raw [] := by
        funext lc
        simp [writeImpl, hact]
      rw [hw, wireSize, wire, hact]
      exact Faithful.raw rfl
    · have hw : (oneof p mems).writeImpl skipTag false d u = writeAt mems i m := by
        funext lc
        simp [writeImpl, hact]
      rw [hw]
      simp only [wireSize, wire, hact] at hlt ⊢
      refine wireAt_faithful ?_ hm ?_ hlt
      · intro f hmem hfv hex hl
        have hmfit : f.fitsMember m = true := by
          rw [fitsMember_of_isElement (helem f hmem)]
          exact hfv
        exact ih f hmem (hwf f hmem) false (by simp) [] m hmfit hex hl
      · intro n h
        exact hn n (by simp [nodes, hact, h])

/-- A message at the top level has no tag, and a length if it is written with one. -/
theorem wire_faithful_top (hcut : CutsAsCopied cut) (s : Schema) (skipLen : Bool) {v : Val}
    (hu : s.fld.fitsVal v = true) (hn : ∀ n ∈ s.fld.nodes true skipLen [] v, n.Exact)
    (hlt : (s.fld.wire cut true skipLen [] v).length < 2 ^ 32) :
    Faithful (s.fld.wireSize true skipLen [] v) (s.fld.writeImpl true skipLen [] v)
      (s.fld.wire cut true skipLen [] v) := by
  unfold Schema.fld topLevel at *
  apply message_faithful (fun _ => rfl) _ hlt
  intro hsub hv
  have hfit : (message 0 ⟨false, none, none, none, s.check⟩ s.flds).fitsMember v = true := hu
  refine wires_faithful ?_ (members_fit hfit hv) ?_ hsub
  · intro f hmem u hfit hex hl
    exact wire_faithful hcut f (s.wf_flds f hmem) false (by simp) _ u hfit hex hl
  · intro n h
    apply hn n
    simp [nodes, h]

theorem length_wireSizes_snd {sizes : Val → ℕ × List ℕ} (cnt : Val → ℕ) {vs : List Val}
    (h : ∀ v ∈ vs, (sizes v).2.length = cnt v) :
    (wireSizes sizes vs).2.length = (vs.map cnt).sum := by
  induction vs with
  | nil => rfl
  | cons v vs ih =>
    have hv := h v (by simp)
    have hvs := ih (fun x hx => h x (by simp [hx]))
    simp [wireSizes, hv, hvs]

theorem wireSize_snd_of_isPacked {f : Fld} (h : f.isPacked = true) (skipTag skipLen : Bool)
    (d : List Val) (u : Val) : (f.wireSize skipTag skipLen d u).2 = [] := by
  cases f with
  | varint => simp only [wireSize]; split_ifs <;> rfl
  | fixed => simp only [wireSize]; split_ifs <;> rfl
  | _ => simp [isPacked, wireType] at h

theorem length_subFldsLen_snd {fs : List Fld} {d us : List Val}
    (h : ∀ f ∈ fs, ∀ u, (f.wireSize false false d u).2.length = f.lenCacheCnt false d u) :
    (subFldsLen fs d us).2.length = lenCacheCnts fs d us := by
  induction fs generalizing us with
  | nil => rfl
  | cons f fs ih =>
    have hf := h f (by simp) (us.headD .none)
    have hfs : (subFldsLen fs d us.tail).2.length = lenCacheCnts fs d us.tail :=
      ih fun g hg => h g (by simp [hg])
    rw [subFldsLen, lenCacheCnts, List.length_append, hf, hfs]

theorem length_wireSizeAt_snd {fs : List Fld} {i : ℕ} {m : Val}
    (h : ∀ f ∈ fs, (f.wireSize false false [] m).2.length = f.lenCacheCnt false [] m) :
    (wireSizeAt fs i m).2.length = lenCacheCntAt fs i m := by
  induction fs generalizing i with
  | nil => rfl
  | cons f fs ih =>
    cases i with
    | zero => exact h f (by simp)
    | succ i => exact ih (fun g hg => h g (by simp [hg]))

/-- The first pass fills as many slots as were counted, on every value. -/
theorem length_wireSize_snd (f : Fld) (skipTag skipLen : Bool) (d : List Val) (u : Val) :
    (f.wireSize skipTag skipLen d u).2.length = f.lenCacheCnt skipLen d u := by
  induction f using ind generalizing skipTag skipLen d u with
  | varint => simp only [wireSize, lenCacheCnt]; split_ifs <;> rfl
  | fixed => simp only [wireSize, lenCacheCnt]; split_ifs <;> rfl
  | bytes => simp only [wireSize, lenCacheCnt]; split_ifs <;> rfl
  | message id p flds ih =>
    have hsub : (subFldsLen flds (p.constVal u).members (p.constVal u).members).2.length =
        lenCacheCnts flds (p.constVal u).members (p.constVal u).members :=
      length_subFldsLen_snd fun f hf v => ih f hf false false _ v
    simp only [wireSize, lenCacheCnt]
    split_ifs
    · rfl
    · simpa using hsub
    · simpa [add_comm] using hsub
    · rfl
  | repeated elem c p ih =>
    by_cases hs : elem.isStaticLen = true
    · simp only [wireSize, lenCacheCnt, hs, if_true, Bool.true_or]
      split_ifs <;> rfl
    · by_cases hp : elem.isPacked = true
      · have hnil : (wireSizes (elem.wireSize elem.isPacked false []) u.elems).2.length = 0 := by
          rw [length_wireSizes_snd (fun _ => 0)
            (fun v _ => by simp [wireSize_snd_of_isPacked hp])]
          simp
        simp only [wireSize, lenCacheCnt, hs, hp, if_true, if_false, Bool.false_eq_true,
          Bool.false_or]
        rw [hp] at hnil
        split_ifs
        · exact hnil
        · simp [hnil]
      · simp only [wireSize, lenCacheCnt, hs, hp, if_false, Bool.false_eq_true]
        exact length_wireSizes_snd _ fun v _ => ih false false [] v
  | oneof p mems ih =>
    simp only [wireSize, lenCacheCnt]
    split
    · rfl
    · exact length_wireSizeAt_snd fun f hf => ih f hf false false [] _

/-- A call the writer makes on a value of the schema: the value has the field's type, and only a
field that cannot be absent is written without its tag. -/
structure NodeOk (q : Fld → Bool) (n : Node) : Prop where
  all : q n.fld = true
  fits : n.fld.fitsMember n.u = true
  skip : n.skipTag = true → n.fld.isOptional = false

theorem nodes_ok {q : Fld → Bool} (f : Fld) (hf : f.wf = true) (hq : f.all q = true)
    (skipTag skipLen : Bool) (ht : skipTag = true → f.isOptional = false) (d : List Val) (u : Val)
    (hu : f.fitsMember u = true) : ∀ n ∈ f.nodes skipTag skipLen d u, NodeOk q n := by
  have hself : NodeOk q ⟨f, skipTag, skipLen, d, u⟩ := ⟨all_self hq, hu, ht⟩
  induction f using ind generalizing skipTag skipLen d u with
  | varint | fixed | bytes => simpa [nodes] using hself
  | message id p flds ih =>
    intro n hn
    simp only [nodes, List.mem_cons] at hn
    rcases hn with rfl | hn
    · exact hself
    split_ifs at hn with hv
    · have hwf := wf_message hf
      simp only [all, Bool.and_eq_true, alls_eq_true] at hq
      obtain ⟨g, w, hsub, hn⟩ := exists_subcall hn
      have hw := hsub.fits (members_fit hu (hasVal_of_present (p := p) ht hv))
      have hqg := hq.2 g hsub.mem
      exact ih g hsub.mem (hwf g hsub.mem) hqg false false (by simp) _ w hw
        ⟨all_self hqg, hw, by simp⟩ n hn
    · simp at hn
  | repeated elem c p ih =>
    intro n hn
    simp only [nodes, List.mem_cons, List.mem_flatten, List.mem_map] at hn
    rcases hn with rfl | ⟨l, ⟨v, hv, rfl⟩, hn⟩
    · exact hself
    obtain ⟨hwf, he, -⟩ := wf_repeated hf
    have hfit := fitsVal_repeated hf hu
    simp only [all, Bool.and_eq_true] at hq
    have hvfit := elems_fitMember he hfit v hv
    have hopt : elem.isPacked = true → elem.isOptional = false := fun _ => isOptional_of_isElement he
    exact ih hwf hq.2 elem.isPacked false hopt [] v hvfit ⟨all_self hq.2, hvfit, hopt⟩ n hn
  | oneof p mems ih =>
    intro n hn
    simp only [nodes, List.mem_cons] at hn
    rcases hn with rfl | hn
    · exact hself
    obtain ⟨hwf, helem, -⟩ := wf_oneof hf
    have hfit := fitsVal_oneof hf hu
    simp only [all, Bool.and_eq_true, alls_eq_true] at hq
    rcases active_fits hfit with ⟨m, hact⟩ | ⟨i, m, hact, hm⟩
    · simp [hact] at hn
    · simp only [hact] at hn
      obtain ⟨g, hg, hnodes, hfv, -⟩ := subcallAt hm
      have hgfit : g.fitsMember m = true := by
        rw [fitsMember_of_isElement (helem g hg)]
        exact hfv
      rw [hnodes] at hn
      exact ih g hg (hwf g hg) (hq.2 g hg) false false (by simp) [] m hgfit
        ⟨all_self (hq.2 g hg), hgfit, by simp⟩ n hn

/-- The C++ value type is the wire type itself. -/
def hasWireType : Fld → Bool
  | varint _ ty c _ => c = ty.tar
  | fixed _ ty c _ => c = ty.tar
  | _ => true

abbrev wireTyped (f : Fld) : Bool := f.all hasWireType

theorem exact_of_wireTyped {n : Node} (hn : NodeOk hasWireType n) : n.Exact := by
  obtain ⟨f, skipTag, skipLen, d, u⟩ := n
  obtain ⟨hq, hu, ht⟩ := hn
  cases f with
  | varint id ty c p =>
    intro _ hv
    have hhas := hasVal_of_present (p := p) ht hv
    have hfit : (varint id ty c p).fitsVal (p.constVal u) = true :=
      fitsVal_constVal (f := varint id ty c p) (d := d) hu hhas
    obtain rfl : c = ty.tar := by simpa [hasWireType] using hq
    have hcast : ty.tar.cast (p.constVal u).toInt = (p.constVal u).toInt := by
      apply CInt.cast_of_inRange
      unfold fitsVal at hfit
      cases hc : p.constVal u <;> simp_all [Val.toInt]
    rw [hcast, length_appendVarint]
  | _ => trivial

theorem cutsAsCopied_self : CutsAsCopied fun bs => bs := by
  intro bs hlt
  rw [sizeT_of_lt hlt, List.take_length]

/-- The writer puts out the encoding of a value whose C++ types are the wire types. -/
theorem encoding_faithful (s : Schema) (hs : s.fld.wireTyped = true) (skipLen : Bool) {v : Val}
    (hv : s.fld.fitsVal v = true) (hlt : (s.fld.encoding true skipLen [] v).length < 2 ^ 32) :
    Faithful (s.fld.wireSize true skipLen [] v) (s.fld.writeImpl true skipLen [] v)
      (s.fld.encoding true skipLen [] v) := by
  apply wire_faithful_top cutsAsCopied_self s skipLen hv _ hlt
  intro n hn
  exact exact_of_wireTyped (nodes_ok s.fld s.wf hs true skipLen (fun _ => rfl) [] v hv n hn)

/-- The three passes over a message agree on the length cache. The log pairs each slot that
`write_impl` takes with the number of payload bytes that follow it. -/
theorem lenCache_protocol (s : Schema) (hs : s.fld.wireTyped = true) (skipLen : Bool) (v : Val)
    (hv : s.fld.fitsVal v = true) (hlt : (s.fld.encoding true skipLen [] v).length < 2 ^ 32) :
    (s.fld.doWrite true skipLen v).lenCache.length = s.fld.lenCacheCnt skipLen [] v ∧
      (s.fld.doWrite true skipLen v).out.lc = [] ∧
      (s.fld.doWrite true skipLen v).out.log.map Prod.fst = (s.fld.doWrite true skipLen v).lenCache ∧
      ∀ slot ∈ (s.fld.doWrite true skipLen v).out.log, slot.1 = slot.2 := by
  have hw := (encoding_faithful s hs skipLen hv hlt).write_eq []
  have hout : (s.fld.doWrite true skipLen v).out =
      ⟨s.fld.encoding true skipLen [] v, [], (s.fld.wireSize true skipLen [] v).2.map fun n => (n, n)⟩ := by
    simpa [doWrite] using hw
  have hlog := congrArg Out.log hout
  refine ⟨?_, congrArg Out.lc hout, ?_, ?_⟩
  · exact length_wireSize_snd s.fld true skipLen [] v
  · rw [hlog]
    simp [doWrite, Function.comp_def]
  · rw [hlog]
    simp

end Fld

/-- A list of messages, each with a list of numbers and a name. -/
def tree : Schema :=
  ⟨[.repeated (.message 1 .null
      [.repeated (.varint 1 .int32 .i32 .null) (.vec true) .null, .bytes 2 ⟨none, 1, false⟩ .null])
      (.vec false) .null], none, by decide⟩

theorem lenCache_protocol_tree :
    let v : Val := .msg [.list [.msg [.list [.int 300, .int 1], .bytes [65]], .msg [.list [], .bytes []]]]
    (tree.fld.doWrite true true v).lenCache.length = tree.fld.lenCacheCnt true [] v ∧
      (tree.fld.doWrite true true v).out.lc = [] ∧
      (tree.fld.doWrite true true v).out.log.map Prod.fst = (tree.fld.doWrite true true v).lenCache ∧
      ∀ slot ∈ (tree.fld.doWrite true true v).out.log, slot.1 = slot.2 :=
  Fld.lenCache_protocol tree (by decide) true _ (by decide +kernel) (by decide +kernel)

end Jkl.Pb
