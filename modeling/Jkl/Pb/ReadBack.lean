import Jkl.Pb.MapField
import Jkl.Pb.Runs
import Jkl.Pb.VarintWords
import Jkl.Pb.WriterSpec

/-! What the writer puts out for a field, read back to the value of the field. -/
namespace Jkl.Pb
open Base128

namespace Fld

/-- The user's own accessors take no part. Only a range of fixed size needs a `p_clear_val`, which
leaves a range of that size. -/
def Plain : Fld → Prop
  | repeated _ (.fixed n _) p =>
    p.pCheck = none ∧ ∀ c, p.pClearVal = some c → ∀ u, ∃ vs, c u = .list vs ∧ vs.length = n
  | f => f.params.pHasVal = none ∧ f.params.pClearVal = none ∧ f.params.pCheck = none

/-- Fields that compile, on objects of their wire types. -/
structure Simple (f : Fld) : Prop where
  wf : f.wf = true
  typed : f.wireTyped = true
  plain : ∀ g ∈ f.subs, g.Plain

namespace Simple

theorem message {id : ℕ} {p : Params} {flds : List Fld} (h : Simple (message id p flds)) :
    ∀ f ∈ flds, Simple f := by
  intro f hf
  have htyped := h.typed
  simp only [wireTyped, all, Bool.and_eq_true, alls_eq_true] at htyped
  constructor
  · exact wf_message h.wf f hf
  · exact htyped.2 f hf
  · intro g hg
    exact h.plain g (List.mem_cons_of_mem _ (mem_subsOf.mpr ⟨f, hf, hg⟩))

theorem elem {elem : Fld} {c : Container} {p : Params} (h : Simple (repeated elem c p)) :
    Simple elem := by
  have htyped := h.typed
  simp only [wireTyped, all, Bool.and_eq_true] at htyped
  constructor
  · exact (wf_repeated h.wf).1
  · exact htyped.2
  · intro g hg
    exact h.plain g (List.mem_cons_of_mem _ hg)

theorem member {p : Params} {mems : List Fld} (h : Simple (oneof p mems)) :
    ∀ f ∈ mems, Simple f := by
  intro f hf
  have htyped := h.typed
  simp only [wireTyped, all, Bool.and_eq_true, alls_eq_true] at htyped
  constructor
  · exact (wf_oneof h.wf).1 f hf
  · exact htyped.2 f hf
  · intro g hg
    exact h.plain g (List.mem_cons_of_mem _ (mem_subsOf.mpr ⟨f, hf, hg⟩))

end Simple

end Fld

variable {debug : Bool}

section Singles

theorem Params.wrap_constVal {p : Params} {d : List Val} {u : Val} (h : p.hasVal d u = true) :
    p.wrap (p.constVal u) = u := by
  unfold Params.hasVal at h
  unfold Params.wrap Params.constVal
  split_ifs at h ⊢ with hopt
  · cases u with
    | some v => rfl
    | _ => cases h
  · rfl

/-- A field that was not written is cleared to the value it has. -/
theorem Params.clearVal_absent {p : Params} {d : List Val} {u : Val} (hhas : p.pHasVal = none)
    (hclear : p.pClearVal = none) (h : p.hasVal d u = false)
    (hnone : p.pOptional = true → u.isSome = false → u = .none) :
    p.isOptional = true ∧ ∀ u₀, p.clearVal u₀ = u := by
  unfold Params.hasVal at h
  unfold Params.isOptional Params.clearVal
  rw [hhas, hclear]
  rw [hhas] at h
  by_cases hopt : p.pOptional = true
  · rw [if_pos hopt] at h
    simp [hopt, hnone hopt h]
  · rw [if_neg hopt] at h
    cases hdef : p.pDefault with
    | none => simp [hdef] at h
    | some x =>
      obtain rfl : u = x := by simpa [hdef] using h
      simp [hopt]

namespace Fld

theorem eq_none_of_fitsMember {f : Fld} {u : Val} (hu : f.fitsMember u = true)
    (hopt : f.inOptional = true) (h : u.isSome = false) : u = .none := by
  simpa [fitsMember, hopt, h] using hu

theorem absent_single {f : Fld} (hs : f.isSingle = true) (hplain : f.Plain) {d : List Val} {u : Val}
    (hu : f.fitsMember u = true) (hv : f.hasVal d u = false) :
    f.encoding false false d u = [] ∧ f.isOptional = true ∧ ∀ u₀, f.clearVal u₀ = u := by
  cases f with
  | varint id ty c p =>
    have hv : p.hasVal d u = false := hv
    obtain ⟨hopt, hclear⟩ := p.clearVal_absent hplain.1 hplain.2.1 hv (eq_none_of_fitsMember hu)
    exact ⟨by simp [wire, hv], hopt, hclear⟩
  | fixed id ty c p =>
    have hv : p.hasVal d u = false := hv
    obtain ⟨hopt, hclear⟩ := p.clearVal_absent hplain.1 hplain.2.1 hv (eq_none_of_fitsMember hu)
    exact ⟨by simp [wire, hv], hopt, hclear⟩
  | message id p flds =>
    have hv : p.hasVal d u = false := hv
    obtain ⟨hopt, hclear⟩ := p.clearVal_absent hplain.1 hplain.2.1 hv (eq_none_of_fitsMember hu)
    exact ⟨by simp [wire, hv], hopt, hclear⟩
  | bytes id b p =>
    refine ⟨by simp [wire, hv], ?_⟩
    by_cases hb : (p.pOptional && b.plain) = true
    · have hin : inOptional (bytes id b p) = false := by
        simp at hb
        simp [inOptional, hb]
      have hempty : u = .bytes [] := by
        simp only [hasVal, if_pos hb] at hv
        simp only [fitsMember, hin] at hu
        cases u <;> simp [fitsVal, Val.toBytes] at hu hv ⊢
        exact hv
      have hopt : p.pOptional = true := by
        simp at hb
        exact hb.1
      exact ⟨by simp [isOptional, params, Params.isOptional, hopt],
        fun u₀ => (if_pos hb).trans hempty.symm⟩
    · have hv : p.hasVal d u = false := by simpa [hasVal, hb] using hv
      have hnone : p.pOptional = true → u.isSome = false → u = .none := by
        intro hopt
        apply eq_none_of_fitsMember hu
        simp [hopt] at hb
        simp [inOptional, hopt, hb]
      obtain ⟨hopt, hclear⟩ := p.clearVal_absent hplain.1 hplain.2.1 hv hnone
      exact ⟨hopt, fun u₀ => by simp [clearVal, hb, hclear]⟩
  | repeated | oneof => cases hs

/-- What is written of a field with a value is its tag and a payload. -/
theorem encoding_single {f : Fld} (hs : f.isSingle = true) {d : List Val} {u : Val}
    (hv : f.hasVal d u = true) :
    f.encoding false false d u = varintBytes f.tag ++ f.encoding true false d u := by
  cases f with
  | varint id ty c p =>
    have hv : p.hasVal d u = true := hv
    simp [wire, hv, writeTag, tag, Fld.id, wireType]
  | fixed id ty c p =>
    have hv : p.hasVal d u = true := hv
    simp [wire, hv, writeTag, tag, Fld.id, wireType]
  | message id p flds =>
    have hv : p.hasVal d u = true := hv
    simp [wire, hv, writeTag, tag, Fld.id, wireType]
  | bytes id b p => simp [wire, hv, writeTag, tag, Fld.id, wireType]
  | repeated | oneof => cases hs

end Fld

/-- The bytes behind the tag of a field are read to its value, whatever the object held before. -/
def Fld.ReadsBack (debug : Bool) (f : Fld) : Prop :=
  ∀ d u, f.fitsMember u = true → f.hasVal d u = true →
    (f.encoding true false d u).length < 2 ^ 32 →
    ∀ u₀, Payload (f.reader (.build debug)) u₀ (f.encoding true false d u) u

theorem varint_readsBack {id : ℕ} {ty : VarintTy} {p : Params} :
    (Fld.varint id ty ty.tar p).ReadsBack debug := by
  intro d u hu hv hlt u₀ x lim hlim
  have hv : p.hasVal d u = true := hv
  have hfit : (Fld.varint id ty ty.tar p).fitsVal (p.constVal u) = true :=
    Fld.fitsVal_constVal (f := .varint id ty ty.tar p) (d := d) hu hv
  obtain ⟨y, hy, hin⟩ : ∃ y, p.constVal u = .int y ∧ ty.tar.InRange y := by
    cases hc : p.constVal u <;> simp [hc, Fld.fitsVal] at hfit
    exact ⟨_, rfl, hfit⟩
  have hsign : ty.zigzag = true → ty.tar.signed = true ∨ ty.tar = .bool := by
    cases ty <;> simp [VarintTy.zigzag, VarintTy.tar, CInt.signed]
  have henc : (Fld.varint id ty ty.tar p).encoding true false d u =
      appendVarint ty.zigzag ty.tar y := by
    simp [Fld.wire, hv, writeTag, hy, Val.toInt, CInt.cast_of_inRange hin]
  have hval : p.wrap (.int (ty.tar.cast y)) = u := by
    rw [CInt.cast_of_inRange hin, ← hy, Params.wrap_constVal hv]
  rw [henc] at hlim ⊢
  change varintRead (.build debug) ty ty.tar p _ _ _ = _
  unfold varintRead
  rw [readVarint_appendVarint hsign hin hlim]
  unfold Res.andThen
  dsimp only
  rw [MapField.build_check (Or.inl rfl), hval]

theorem fixed_readsBack {id : ℕ} {ty : FixedTy} {p : Params} :
    (Fld.fixed id ty ty.tar p).ReadsBack debug := by
  intro d u hu hv hlt u₀ x lim hlim
  have hv : p.hasVal d u = true := hv
  have hfit : (Fld.fixed id ty ty.tar p).fitsVal (p.constVal u) = true :=
    Fld.fitsVal_constVal (f := .fixed id ty ty.tar p) (d := d) hu hv
  obtain ⟨y, hy, hin⟩ : ∃ y, p.constVal u = .int y ∧ ty.tar.InRange y := by
    cases hc : p.constVal u <;> simp [hc, Fld.fitsVal] at hfit
    exact ⟨_, rfl, hfit⟩
  have henc : (Fld.fixed id ty ty.tar p).encoding true false d u = storeLe ty.tar y := by
    simp [Fld.wire, hv, writeTag, hy, Val.toInt]
  have hlen : (storeLe ty.tar y).length = ty.size := LittleEndian.length_store _ _
  have hload : loadLe ty.tar (storeLe ty.tar y) = y := by
    unfold loadLe storeLe
    rw [LittleEndian.load_store]
    · cases ty <;> simp [FixedTy.tar, CInt.InRange, CInt.signed, CInt.bits] at hin <;>
        simp [FixedTy.tar, CInt.cast, CInt.signed, CInt.bits] <;> omega
    · cases ty <;> simp [FixedTy.tar, CInt.bits] <;> omega
  rw [henc] at hlim ⊢
  change fixedRead ty ty.tar p _ _ _ = _
  unfold fixedRead
  rw [if_pos (by omega), ← hlen, load_append]
  dsimp only
  rw [hload, CInt.cast_of_inRange hin, ← hy, Params.wrap_constVal hv]

theorem bytes_readsBack {id : ℕ} {b : Buf} {p : Params} : (Fld.bytes id b p).ReadsBack debug := by
  intro d u hu hv hlt u₀ x lim hlim
  have hfit : (Fld.bytes id b p).fitsVal ((Fld.bytes id b p).constVal u) = true :=
    Fld.fitsVal_constVal (d := d) hu hv
  obtain ⟨bs, hbs, hacc⟩ : ∃ bs, (Fld.bytes id b p).constVal u = .bytes bs ∧
      b.accepts bs.length = true := by
    cases hc : (Fld.bytes id b p).constVal u <;> simp [hc, Fld.fitsVal] at hfit
    exact ⟨_, rfl, hfit⟩
  have henc : (Fld.bytes id b p).encoding true false d u = encode bs.length ++ bs := by
    simp [Fld.wire, hv, writeTag, hbs, Val.toBytes, delimited]
  have hval : (if p.pOptional && !b.plain then .some (.bytes bs) else .bytes bs : Val) = u := by
    by_cases hin : (p.pOptional && !b.plain) = true
    · have hcont : (Fld.bytes id b p).constVal u = u.get := if_pos hin
      have hsome : u.isSome = true := by
        rw [Bool.and_eq_true, Bool.not_eq_true'] at hin
        simpa [Fld.hasVal, Params.hasVal, hin.1, hin.2] using hv
      rw [if_pos hin, ← hbs, hcont]
      cases u with
      | some v => rfl
      | _ => cases hsome
    · have hcont : (Fld.bytes id b p).constVal u = u := if_neg hin
      rw [if_neg hin, ← hbs, hcont]
  rw [henc] at hlim hlt ⊢
  have hbytes : bs.length < 2 ^ 32 := by
    rw [List.length_append] at hlt
    omega
  change bytesRead (.build debug) b p _ _ _ = _
  unfold bytesRead
  rw [List.append_assoc, readVarintUint_append (numeral_encode hbytes) (by simp at hlim; omega),
    value_encode]
  unfold Res.andThen
  dsimp only
  rw [if_pos hacc, MapField.build_check (Or.inl rfl), List.drop_left, load_append]
  dsimp only
  rw [hval, List.length_append]

end Singles

section Elements

/-- The bytes of the elements of a repeated field, of which the first may have lost its tag. -/
def elemsBytes (elem : Fld) (w : Val → List UInt8) : (first : Bool) → List Val → List UInt8
  | _, [] => []
  | first, e :: es => elemTag elem first ++ w e ++ elemsBytes elem w false es

/-- The payloads of the elements are read back. -/
def ElemsBack (read : Reader) (w : Val → List UInt8) (vs : List Val) : Prop :=
  ∀ e ∈ vs, w e ≠ [] ∧ ∀ u₀, Payload read u₀ (w e) e

variable {elem : Fld} {c : Container} {read : Reader} {w : Val → List UInt8} {vs : List Val}
  {x : List UInt8} {l n : ℕ}

theorem elemsBytes_packed (hp : elem.isPacked = true) (first : Bool) :
    elemsBytes elem w first vs = (vs.map w).flatten := by
  induction vs generalizing first with
  | nil => rfl
  | cons e es ih => simp [elemsBytes, elemTag, hp, ih]

theorem elemsBytes_unpacked (hp : elem.isPacked = false) :
    elemsBytes elem w false vs = (vs.map fun e => varintBytes elem.tag ++ w e).flatten := by
  induction vs with
  | nil => rfl
  | cons e es ih => simp [elemsBytes, elemTag, hp, ih]

/-- The first tag of a run has been read already. -/
theorem elemsBytes_first (hp : elem.isPacked = false) (hne : vs ≠ []) :
    (vs.map fun e => varintBytes elem.tag ++ w e).flatten =
      varintBytes elem.tag ++ elemsBytes elem w true vs := by
  cases vs with
  | nil => exact absurd rfl hne
  | cons e es => simp [elemsBytes, elemTag, elemsBytes_unpacked hp]

/-- A run of elements is added to a container one by one. -/
theorem ends_elems (hback : ElemsBack read w vs)
    (hend : l = 0 ∨ elem.isPacked = false ∧ startsWithVarintBytes elem.tag x l = none)
    (acc : List Val) (hne : l = 0 ∨ acc ≠ [] ∨ vs ≠ []) :
    Loop.Ends (elemTurn elem c read)
      ⟨elemsBytes elem w acc.isEmpty vs ++ x, (elemsBytes elem w acc.isEmpty vs).length + l, n, acc⟩
      (.ok (n + (elemsBytes elem w acc.isEmpty vs).length) (.list (vs.foldl c.add acc))) := by
  induction vs generalizing n acc with
  | nil =>
    simp only [elemsBytes, List.nil_append, List.length_nil, Nat.zero_add, Nat.add_zero]
    rcases hend with rfl | ⟨hp, hx⟩
    · exact .done elemTurn_end
    · rcases hne with rfl | hacc | hnil
      · exact .done elemTurn_end
      · exact .done (elemTurn_stop hp hacc hx)
      · exact absurd rfl hnil
  | cons e es ih =>
    obtain ⟨hw, hread⟩ := hback e (by simp)
    have hempty : (c.add acc e).isEmpty = false := by
      simpa using add_ne_nil (c := c) acc e
    have hlen : (elemsBytes elem w acc.isEmpty (e :: es)).length =
        (elemTag elem acc.isEmpty).length + (w e).length + (elemsBytes elem w false es).length := by
      rw [elemsBytes, List.length_append, List.length_append]
    have hturn : elemTurn elem c read ⟨elemTag elem acc.isEmpty ++ w e ++
          (elemsBytes elem w false es ++ x), (elemsBytes elem w acc.isEmpty (e :: es)).length + l,
        n, acc⟩ = _ :=
      elemTurn_read hw (by omega) (hread elem.freshVal _ _ (by omega))
    have hrest := ih (fun e he => hback e (by simp [he]))
      (n := n + ((elemTag elem acc.isEmpty).length + (w e).length)) (c.add acc e)
      (Or.inr (Or.inl (add_ne_nil acc e)))
    have hleft : (elemsBytes elem w acc.isEmpty (e :: es)).length + l -
        ((elemTag elem acc.isEmpty).length + (w e).length) =
        (elemsBytes elem w false es).length + l := by
      omega
    rw [hempty] at hrest
    rw [hleft] at hturn
    rw [hlen, ← Nat.add_assoc, ← hlen, List.foldl_cons]
    rw [elemsBytes, List.append_assoc]
    exact .next hturn hrest

/-- A run of elements fills a range of fixed size. -/
theorem readEach_elems {m : Machine} (hback : ElemsBack read w vs) (first : Bool) {es : List Val}
    (hsize : es.length = vs.length) :
    readEach m elem read first es (elemsBytes elem w first vs ++ x)
        ((elemsBytes elem w first vs).length + l) =
      .ok (elemsBytes elem w first vs).length vs := by
  induction vs generalizing first es with
  | nil =>
    rw [List.eq_nil_of_length_eq_zero hsize]
    rfl
  | cons v vs ih =>
    cases es with
    | nil => simp at hsize
    | cons e es =>
      obtain ⟨hw, hread⟩ := hback v (by simp)
      have hlen : (elemsBytes elem w first (v :: vs)).length =
          (elemTag elem first).length + (w v).length + (elemsBytes elem w false vs).length := by
        rw [elemsBytes, List.length_append, List.length_append]
      have hbytes : elemsBytes elem w first (v :: vs) ++ x =
          elemTag elem first ++ w v ++ (elemsBytes elem w false vs ++ x) := by
        rw [elemsBytes, List.append_assoc]
      rw [hbytes]
      conv_rhs => rw [hlen]
      apply readEach_cons
      · exact examTag_elemTag hw (by omega)
      · rw [List.append_assoc, List.drop_left]
        exact hread e _ _ (by omega)
      · have hleft : (elemsBytes elem w first (v :: vs)).length + l -
            ((elemTag elem first).length + (w v).length) =
            (elemsBytes elem w false vs).length + l := by
          omega
        rw [List.append_assoc, drop_append_add, hleft]
        exact ih (fun e he => hback e (by simp [he])) false (by simpa using hsize)

end Elements

end Jkl.Pb
