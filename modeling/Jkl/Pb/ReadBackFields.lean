import Jkl.Pb.Blocks
import Jkl.Pb.PackedSet
import Jkl.Pb.ReadBack
import Jkl.Pb.WireLayout

/-! A field of any kind is left out, or the bytes behind one of its tags are read back. -/
namespace Jkl.Pb
open Base128

variable {debug : Bool}

/-- The elements of a container, added to it in their order, make it up again. -/
theorem Container.foldl_add {c : Container} {vs : List Val} (h : c.holds vs = true) :
    vs.foldl c.add [] = vs := by
  have happend : ∀ acc : List Val, vs.foldl (fun acc e => acc ++ [e]) acc = acc ++ vs := by
    clear h
    induction vs with
    | nil => simp
    | cons v vs ih =>
      intro acc
      simp [ih]
  cases c with
  | vec buf => exact happend []
  | fixed n array => exact happend []
  | set o => exact Sorted.foldl_place _ _ (by simpa [Container.holds] using h)
  | map o => exact Sorted.foldl_place _ _ (by simpa [Container.holds] using h)

theorem encoding_ne_nil {f : Fld} (he : f.isElement = true) (hback : f.ReadsBack debug)
    {d : List Val} {u : Val} (hu : f.fitsMember u = true) (hv : f.hasVal d u = true)
    (hlt : (f.encoding true false d u).length < 2 ^ 32) : f.encoding true false d u ≠ [] := by
  intro hnil
  have hread := hback d u hu hv hlt f.freshVal [] 0 (by simp [hnil])
  have hpos := progress_of_isElement he hread
  rw [hnil] at hpos
  exact absurd hpos (by simp)

/-- The bytes of an element. -/
abbrev Fld.elemBytes (elem : Fld) (e : Val) : List UInt8 := elem.encoding true false [] e

theorem elemsBack_of_readsBack {elem : Fld} (he : elem.isElement = true)
    (hback : elem.ReadsBack debug) {vs : List Val} (hfit : ∀ e ∈ vs, elem.fitsVal e = true)
    (hlt : ∀ e ∈ vs, (elem.elemBytes e).length < 2 ^ 32) :
    ElemsBack (elem.reader (.build debug)) elem.elemBytes vs := by
  intro e hev
  have hmem : elem.fitsMember e = true := by
    rw [Fld.fitsMember_of_isElement he]
    exact hfit e hev
  have hhas : elem.hasVal [] e = true :=
    Fld.hasVal_of_not_optional (Fld.isOptional_of_isElement he) [] e
  constructor
  · exact encoding_ne_nil he hback hmem hhas (hlt e hev)
  · exact hback [] e hmem hhas (hlt e hev)

theorem length_elemsOf (n : ℕ) (u : Val) : (u.elemsOf n).length = n := by
  simp [Val.elemsOf]

section Unpacked

variable {elem : Fld} {c : Container} {vs : List Val} {x : List UInt8} {l : ℕ}

/-- A run of elements behind its first tag is read to the container it was written from. -/
theorem unpacked_read (he : elem.isElement = true) (hp : elem.isPacked = false)
    (hback : ElemsBack (elem.reader (.build debug)) elem.elemBytes vs) (hc : c.holds vs = true)
    (hne : vs ≠ [])
    (hend : l = 0 ∨ startsWithVarintBytes elem.tag x l = none) (u : Val) :
    repeatedRead (.build debug) elem c (elem.reader (.build debug))
        (elemsBytes elem elem.elemBytes true vs ++ x)
        ((elemsBytes elem elem.elemBytes true vs).length + l) u =
      .ok (elemsBytes elem elem.elemBytes true vs).length (.list vs) := by
  cases hfixed : c.isFixed with
  | true =>
    cases c with
    | fixed n array =>
      have hn : vs.length = n := by simpa [Container.holds] using hc
      have hsize : (u.elemsOf n).length = vs.length := by rw [length_elemsOf, hn]
      rw [repeatedRead_fixed hp, MapField.build_check (Or.inl rfl),
        readEach_elems hback true hsize]
      rfl
    | _ => cases hfixed
  | false =>
    have hends : Loop.Ends (elemTurn elem c (elem.reader (.build debug)))
        ⟨elemsBytes elem elem.elemBytes true vs ++ x,
          (elemsBytes elem elem.elemBytes true vs).length + l, 0, []⟩ _ :=
      ends_elems hback (hend.imp id fun h => ⟨hp, h⟩) [] (Or.inr (Or.inr hne))
    rw [Nat.zero_add, Container.foldl_add hc] at hends
    rw [repeatedRead_cleared hp hfixed, MapField.build_check (Or.inl rfl)]
    exact loop_elemTurn (progress_of_isElement he) hends le_rfl

end Unpacked

section Packed

variable {elem : Fld} {c : Container} {vs : List Val} {x : List UInt8}

/-- The bytes of an element are one of the pieces that a packed payload is read by. -/
theorem piece_elemBytes (he : elem.isElement = true) (hp : elem.isPacked = true)
    (hback : ElemsBack (elem.reader (.build debug)) elem.elemBytes vs) {e : Val} (hev : e ∈ vs) :
    elem.Piece (elem.elemBytes e) ∧ elem.pieceVal (elem.elemBytes e) = e := by
  have hpieces := readsPieces debug he hp
  have hread := (hback e hev).2 elem.freshVal [] (elem.elemBytes e).length le_rfl
  rw [List.append_nil] at hread
  obtain ⟨q, rest, hw, hq, -⟩ := hpieces.only _ _ _ _ _ le_rfl hread
  have hq' := hpieces.ok elem.freshVal q hq rest (elem.elemBytes e).length (by simp [hw])
  rw [← hw, hread] at hq'
  obtain ⟨hlen, hval⟩ : (elem.elemBytes e).length = q.length ∧ e = elem.pieceVal q := by
    simpa using hq'
  obtain rfl : rest = [] := by
    rw [hw, List.length_append] at hlen
    exact List.eq_nil_of_length_eq_zero (by omega)
  rw [List.append_nil] at hw
  rw [hw]
  exact ⟨hq, hval.symm⟩

/-- Elements of one length. -/
theorem length_elemsBytes (hp : elem.isPacked = true) (hs : elem.isStaticLen = true)
    (hpiece : ∀ e ∈ vs, elem.Piece (elem.elemBytes e)) :
    (vs.map elem.elemBytes).flatten.length = vs.length * elem.staticFldSize := by
  have hlen : ∀ p ∈ vs.map elem.elemBytes, p.length = elem.staticFldSize := by
    intro p hmem
    obtain ⟨e, hev, rfl⟩ := List.mem_map.mp hmem
    exact Fld.length_of_piece hp hs (hpiece e hev)
  rw [length_flatten_pieces hlen, List.length_map]

/-- The object representation of an element is what it is on the wire. -/
theorem elemBytes_eq_store {t : PackedTy} (ht : elem.packedTy = some t) (he : elem.isElement = true)
    (htyped : elem.hasWireType = true) (hs : elem.sameAsWireLayout c = true) {e : Val}
    (hin : elem.elemType.InRange e.toInt) :
    elem.elemBytes e =
      LittleEndian.store (elem.elemType.bits / 8) (elem.elemType.toBits e.toInt) := by
  have hopt := pOptional_of_isElement he
  cases elem with
  | varint id ty ct p =>
    obtain rfl : ct = ty.tar := by simpa [Fld.hasWireType] using htyped
    obtain rfl : ty = .bool := by
      cases ty <;> simp [Fld.sameAsWireLayout, VarintTy.tar] at hs ⊢
    have hopt : p.pOptional = false := hopt
    have hbit : ∀ x : ℤ, x = 0 ∨ x = 1 → appendVarint false .bool (CInt.bool.cast x) =
        LittleEndian.store 1 (CInt.bool.toBits x) := by
      intro x hx
      rcases hx with rfl | rfl <;> decide
    have henc : (Fld.varint id .bool VarintTy.bool.tar p).elemBytes e =
        appendVarint false .bool (CInt.bool.cast e.toInt) := by
      simp [Fld.wire, Params.constVal, hopt, writeTag, VarintTy.zigzag, VarintTy.tar]
    have hty : (Fld.varint id .bool VarintTy.bool.tar p).elemType = .bool := rfl
    rw [henc, hty]
    exact hbit _ hin
  | fixed id ty ct p =>
    obtain rfl : ct = ty.tar := by simpa [Fld.hasWireType] using htyped
    have hopt : p.pOptional = false := hopt
    have henc : (Fld.fixed id ty ty.tar p).elemBytes e = storeLe ty.tar e.toInt := by
      simp [Fld.wire, Params.constVal, hopt, writeTag]
    have hin : ty.tar.InRange e.toInt := hin
    rw [henc, storeLe, CInt.cast_of_inRange hin]
    rfl
  | bytes | message | repeated | oneof => cases ht

variable {t : PackedTy}

theorem elemType_inRange (ht : elem.packedTy = some t) {e : Val} (hfit : elem.fitsVal e = true) :
    e = .int e.toInt ∧ elem.elemType.InRange e.toInt := by
  cases elem with
  | varint | fixed =>
    cases e <;> simp [Fld.fitsVal] at hfit
    exact ⟨rfl, hfit⟩
  | bytes | message | repeated | oneof => cases ht

/-- The elements of an array lie in memory as they do on the wire. -/
theorem objectBytes_flatten (ht : elem.packedTy = some t) (he : elem.isElement = true)
    (htyped : elem.hasWireType = true) (hs : elem.sameAsWireLayout c = true)
    (hfit : ∀ e ∈ vs, elem.fitsVal e = true) :
    elem.objectBytes vs = (vs.map elem.elemBytes).flatten := by
  have hmap : vs.map elem.elemBytes = (vs.map fun e => elem.elemType.toBits e.toInt).map
      (LittleEndian.store (elem.elemType.bits / 8)) := by
    rw [List.map_map]
    apply List.map_congr_left
    intro e hev
    exact elemBytes_eq_store ht he htyped hs (elemType_inRange ht (hfit e hev)).2
  rw [Fld.objectBytes_eq ht, hmap]
  rfl

/-- The bytes of an array make up the array that they were copied from. -/
theorem objectVals_objectBytes (ht : elem.packedTy = some t)
    (hsize : elem.staticFldSize = elem.elemType.bits / 8)
    (hfit : ∀ e ∈ vs, elem.fitsVal e = true) :
    objectVals elem.elemType elem.staticFldSize vs.length (elem.objectBytes vs) = vs := by
  have hlt : ∀ w ∈ vs.map fun e => elem.elemType.toBits e.toInt,
      w < 256 ^ (elem.elemType.bits / 8) := by
    intro w hw
    obtain ⟨e, -, rfl⟩ := List.mem_map.mp hw
    exact CInt.toBits_lt _ _
  have hwords := LittleEndian.words_flatMap_store hlt
  rw [List.length_map] at hwords
  rw [objectVals_eq, hsize, Fld.objectBytes_eq ht]
  change (LittleEndian.words _ _ (List.flatMap (LittleEndian.store (elem.elemType.bits / 8)) _)).map
    _ = _
  rw [hwords, List.map_map]
  conv_rhs => rw [← List.map_id vs]
  apply List.map_congr_left
  intro e hev
  obtain ⟨hint, hin⟩ := elemType_inRange ht (hfit e hev)
  simp only [Function.comp_apply, id_eq]
  rw [CInt.ofBits_toBits hin, ← hint]

theorem staticFldSize_eq_bits (ht : elem.packedTy = some t) (htyped : elem.hasWireType = true)
    (hs : elem.isStaticLen = true) : elem.staticFldSize = elem.elemType.bits / 8 := by
  rw [Fld.staticFldSize_eq ht hs]
  cases elem with
  | varint | fixed =>
    cases ht
    simp only [Fld.hasWireType, decide_eq_true_eq] at htyped
    subst htyped
    rfl
  | bytes | message | repeated | oneof => cases ht

/-- The payload of a packed field. -/
abbrev payloadOf (elem : Fld) (vs : List Val) : List UInt8 := (vs.map elem.elemBytes).flatten

/-- The payload in a container that is cleared first. -/
theorem packed_loop (he : elem.isElement = true) (hp : elem.isPacked = true)
    (hback : ElemsBack (elem.reader (.build debug)) elem.elemBytes vs) (hc : c.holds vs = true) :
    loop (elemTurn elem c (elem.reader (.build debug))) (payloadOf elem vs).length
      ⟨payloadOf elem vs ++ x, (payloadOf elem vs).length, 0, []⟩ =
      .ok (payloadOf elem vs).length (.list vs) := by
  have hends : Loop.Ends (elemTurn elem c (elem.reader (.build debug)))
      ⟨elemsBytes elem elem.elemBytes true vs ++ x,
        (elemsBytes elem elem.elemBytes true vs).length + 0, 0, []⟩
      (.ok (0 + (elemsBytes elem elem.elemBytes true vs).length) (.list (vs.foldl c.add []))) :=
    ends_elems hback (Or.inl rfl) [] (Or.inl rfl)
  rw [Nat.zero_add, Container.foldl_add hc, elemsBytes_packed hp, Nat.add_zero] at hends
  exact loop_elemTurn (progress_of_isElement he) hends le_rfl

/-- The payload in a range that has its size already. -/
theorem packed_each (hp : elem.isPacked = true)
    (hback : ElemsBack (elem.reader (.build debug)) elem.elemBytes vs) {es : List Val}
    (hsize : es.length = vs.length) :
    readEach (.build debug) elem (elem.reader (.build debug)) true es (payloadOf elem vs ++ x)
      (payloadOf elem vs).length = .ok (payloadOf elem vs).length vs := by
  have hread : readEach (.build debug) elem (elem.reader (.build debug)) true es
      (elemsBytes elem elem.elemBytes true vs ++ x)
      ((elemsBytes elem elem.elemBytes true vs).length + 0) = _ := readEach_elems hback true hsize
  rwa [elemsBytes_packed hp, Nat.add_zero] at hread

theorem packed_count (he : elem.isElement = true) (hp : elem.isPacked = true)
    (hback : ElemsBack (elem.reader (.build debug)) elem.elemBytes vs)
    (hs : elem.isStaticLen = true) :
    (payloadOf elem vs).length / elem.staticFldSize = vs.length := by
  rw [length_elemsBytes hp hs fun e hev => (piece_elemBytes he hp hback hev).1]
  exact Nat.mul_div_cancel _ (staticFldSize_pos hp hs)

/-- Elements of one length, copied or read one by one. -/
theorem packed_static (he : elem.isElement = true) (ht : elem.packedTy = some t)
    (htyped : elem.hasWireType = true) (hfit : ∀ e ∈ vs, elem.fitsVal e = true)
    (hback : ElemsBack (elem.reader (.build debug)) elem.elemBytes vs) (hc : c.holds vs = true)
    (hs : elem.isStaticLen = true) (u : Val) :
    readStatic (.build debug) elem c (elem.reader (.build debug)) (payloadOf elem vs ++ x)
      (payloadOf elem vs).length u = .ok (payloadOf elem vs).length (.list vs) := by
  have hp := Fld.isPacked_of_packedTy ht
  have hinto : ∀ es : List Val, es.length = vs.length →
      readOver (.build debug) elem c (elem.reader (.build debug)) (payloadOf elem vs ++ x)
        (payloadOf elem vs).length es = .ok (payloadOf elem vs).length (.list vs) := by
    intro es hsize
    unfold readOver
    rw [packed_count he hp hback hs]
    split_ifs with hsame
    · have hvals := objectVals_objectBytes ht (staticFldSize_eq_bits ht htyped hs) hfit
      rw [objectBytes_flatten ht he htyped hsame hfit] at hvals
      rw [load_append]
      dsimp only
      rw [hvals]
    · rw [packed_each hp hback hsize]
      rfl
  rw [readStatic_eq, packed_count he hp hback hs]
  cases c with
  | fixed n array =>
    have hn : vs.length = n := by simpa [Container.holds] using hc
    dsimp only
    rw [if_pos hn]
    exact hinto _ (by rw [length_elemsOf, hn])
  | _ => exact hinto _ (by simp)

/-- The payload of a packed field is read to its elements. -/
theorem packed_payload (he : elem.isElement = true) (ht : elem.packedTy = some t)
    (htyped : elem.hasWireType = true) (hfit : ∀ e ∈ vs, elem.fitsVal e = true)
    (hback : ElemsBack (elem.reader (.build debug)) elem.elemBytes vs) (hc : c.holds vs = true)
    (u : Val) :
    readElems (.build debug) elem c (elem.reader (.build debug)) (payloadOf elem vs ++ x)
      (payloadOf elem vs).length u = .ok (payloadOf elem vs).length (.list vs) := by
  have hp := Fld.isPacked_of_packedTy ht
  have hloop := packed_loop (x := x) he hp hback hc
  have hcount := packed_count he hp hback
  have hstatic := fun hs => packed_static (x := x) he ht htyped hfit hback hc hs u
  have heach : ∀ n, vs.length = n → readEach (.build debug) elem (elem.reader (.build debug)) true
      (u.elemsOf n) (payloadOf elem vs ++ x) (payloadOf elem vs).length =
      .ok (payloadOf elem vs).length vs := fun n hn =>
    packed_each hp hback (by rw [length_elemsOf, hn])
  generalize payloadOf elem vs = payload at *
  unfold readElems
  cases hs : elem.isStaticLen with
  | true =>
    have hcnt := hcount hs
    cases c with
    | set o => simp [hp, hloop, Val.elems, hcnt]
    | map o => simp [hp, hloop, Val.elems, hcnt]
    | _ => simpa [hp, hs] using hstatic hs
  | false =>
    cases c with
    | fixed n array => simp [hp, heach n (by simpa [Container.holds] using hc), listOf]
    | _ => simp [hp, hloop]

/-- A packed field behind its tag. -/
theorem packed_read (he : elem.isElement = true) (ht : elem.packedTy = some t)
    (htyped : elem.hasWireType = true) (hfit : ∀ e ∈ vs, elem.fitsVal e = true)
    (hback : ElemsBack (elem.reader (.build debug)) elem.elemBytes vs) (hc : c.holds vs = true)
    (hlt : (payloadOf elem vs).length < 2 ^ 32) (u : Val) :
    Payload (repeatedRead (.build debug) elem c (elem.reader (.build debug))) u
      (delimited (payloadOf elem vs)) (.list vs) := by
  intro x lim hlim
  have hp := Fld.isPacked_of_packedTy ht
  have hdvd :
      (elem.isStaticLen && (payloadOf elem vs).length % elem.staticFldSize ≠ 0) = false := by
    cases hs : elem.isStaticLen with
    | false => rfl
    | true =>
      rw [length_elemsBytes hp hs fun e hev => (piece_elemBytes he hp hback hev).1]
      simp
  unfold delimited at hlim ⊢
  rw [List.length_append] at hlim
  rw [repeatedRead_packed hp (numeral_encode hlt) (value_encode _) hlim hdvd, List.length_append]
  have hread := packed_payload (x := x) he ht htyped hfit hback hc u
  change (readElems (.build debug) elem c _ (payloadOf elem vs ++ x) _ u).advance _ = _
  rw [hread]
  rfl

end Packed

section Fields

/-- A field that is left out is cleared to the value it has. -/
def Fld.LeftOut (f : Fld) (d : List Val) (u : Val) : Prop :=
  f.encoding false false d u = [] ∧ f.isOptional = true ∧ ∀ u₀, f.clearVal u₀ = u

/-- The bytes behind a tag of the field are read to the value it has, unless they go on. -/
def Fld.ComesBack (debug : Bool) (f : Fld) (d : List Val) (u : Val) : Prop :=
  ∃ g read p, (g, read) ∈ f.injectedFlds.zip (f.injectedFldRead (.build debug)) ∧
    f.encoding false false d u = varintBytes g.tag ++ p ∧
    ∀ u₀ x l, l = 0 ∨ startsWithVarintBytes g.tag x l = none →
      read (p ++ x) (p.length + l) u₀ = .ok p.length u

/-- What a field writes, it reads. -/
def Fld.Restores (debug : Bool) (f : Fld) : Prop :=
  ∀ d u, f.fitsMember u = true → (f.encoding false false d u).length < 2 ^ 32 →
    f.LeftOut d u ∨ f.ComesBack debug d u

theorem single_restores {f : Fld} (hs : f.isSingle = true) (hplain : f.Plain)
    (hback : f.ReadsBack debug) : f.Restores debug := by
  intro d u hu hlt
  cases hv : f.hasVal d u with
  | false => exact Or.inl (f.absent_single hs hplain hu hv)
  | true =>
    have henc := f.encoding_single hs hv
    rw [henc, List.length_append] at hlt
    have hread := hback d u hu hv (by omega)
    refine Or.inr ⟨f, f.reader (.build debug), f.encoding true false d u, ?_, henc, ?_⟩
    · rw [Fld.injectedFldRead_single hs, Fld.injectedFlds_single hs]
      simp
    · intro u₀ x l _
      exact hread u₀ x _ (Nat.le_add_right _ _)

theorem exists_packedTy {elem : Fld} (hp : elem.isPacked = true) : ∃ t, elem.packedTy = some t := by
  cases elem with
  | varint id ty => exact ⟨_, rfl⟩
  | fixed id ty => exact ⟨_, rfl⟩
  | _ => simp [Fld.isPacked, Fld.wireType] at hp

theorem length_le_flatten {w : Val → List UInt8} {vs : List Val} {e : Val} (h : e ∈ vs) :
    (w e).length ≤ (vs.map w).flatten.length :=
  (List.sublist_flatten_of_mem (List.mem_map_of_mem h)).length_le

section Repeated

variable {elem : Fld} {c : Container} {p : Params} {vs d : List Val}

theorem packed_comesBack (he : elem.isElement = true) (hp : elem.isPacked = true)
    (htyped : elem.hasWireType = true) (hback : elem.ReadsBack debug) (hc : c.holds vs = true)
    (hfit : ∀ e ∈ vs, elem.fitsVal e = true)
    (hlt : ((Fld.repeated elem c p).encoding false false d (.list vs)).length < 2 ^ 32) :
    (Fld.repeated elem c p).ComesBack debug d (.list vs) := by
  obtain ⟨t, ht⟩ := exists_packedTy hp
  have hpay : (if elem.sameAsWireLayout c then elem.objectBytes vs else payloadOf elem vs) =
      payloadOf elem vs := by
    split_ifs with hsame
    · exact objectBytes_flatten ht he htyped hsame hfit
    · rfl
  have henc : (Fld.repeated elem c p).encoding false false d (.list vs) =
      varintBytes (Fld.repeated elem c p).tag ++ delimited (payloadOf elem vs) := by
    rw [← hpay]
    simp [Fld.wire, hp, writeTag, Fld.tag, Fld.id, Fld.wireType, Val.elems, payloadOf]
  rw [henc, List.length_append, delimited, List.length_append] at hlt
  have helems : ElemsBack (elem.reader (.build debug)) elem.elemBytes vs := by
    apply elemsBack_of_readsBack he hback hfit
    intro e hev
    have hle := length_le_flatten (w := elem.elemBytes) hev
    change _ ≤ (payloadOf elem vs).length at hle
    omega
  refine ⟨.repeated elem c p, repeatedRead (.build debug) elem c (elem.reader (.build debug)),
    delimited (payloadOf elem vs), ?_, henc, ?_⟩
  · exact List.mem_singleton_self _
  · intro u₀ x l _
    exact packed_read he ht htyped hfit helems hc (by omega) u₀ x _ (Nat.le_add_right _ _)

theorem tag_unpacked (hp : elem.isPacked = false) : (Fld.repeated elem c p).tag = elem.tag := by
  have hwire : elem.wireType = .lenDlm := by simpa [Fld.isPacked] using hp
  rw [Fld.tag, Fld.tag, hwire]
  rfl

theorem encoding_unpacked (he : elem.isElement = true) (hp : elem.isPacked = false) :
    (Fld.repeated elem c p).encoding false false d (.list vs) =
      (vs.map fun e => varintBytes elem.tag ++ elem.elemBytes e).flatten := by
  have hone : ∀ e, elem.encoding false false [] e = varintBytes elem.tag ++ elem.elemBytes e :=
    fun e => elem.encoding_single (isSingle_of_isElement he)
      (Fld.hasVal_of_not_optional (Fld.isOptional_of_isElement he) [] e)
  have hmap : vs.map (fun e => varintBytes elem.tag ++ elem.elemBytes e) =
      vs.map (elem.encoding false false []) := List.map_congr_left fun e _ => (hone e).symm
  rw [hmap]
  simp [Fld.wire, hp, Val.elems]

theorem unpacked_comesBack (he : elem.isElement = true) (hp : elem.isPacked = false)
    (hback : elem.ReadsBack debug) (hc : c.holds vs = true)
    (hfit : ∀ e ∈ vs, elem.fitsVal e = true) (hne : vs ≠ [])
    (hlt : ((Fld.repeated elem c p).encoding false false d (.list vs)).length < 2 ^ 32) :
    (Fld.repeated elem c p).ComesBack debug d (.list vs) := by
  have henc : (Fld.repeated elem c p).encoding false false d (.list vs) = _ :=
    encoding_unpacked he hp
  have helems : ElemsBack (elem.reader (.build debug)) elem.elemBytes vs := by
    apply elemsBack_of_readsBack he hback hfit
    intro e hev
    have hle := length_le_flatten (w := fun e => varintBytes elem.tag ++ elem.elemBytes e) hev
    rw [← henc, List.length_append] at hle
    omega
  rw [elemsBytes_first hp hne, ← tag_unpacked (c := c) (p := p) hp] at henc
  refine ⟨.repeated elem c p, repeatedRead (.build debug) elem c (elem.reader (.build debug)),
    elemsBytes elem elem.elemBytes true vs, ?_, henc, ?_⟩
  · exact List.mem_singleton_self _
  · intro u₀ x l hend
    rw [tag_unpacked hp] at hend
    exact unpacked_read he hp helems hc hne hend u₀

/-- A container that can be empty is empty when it is cleared. -/
theorem clearVal_nil (hf : (Fld.repeated elem c p).wf = true)
    (hplain : (Fld.repeated elem c p).Plain) (hc : c.holds [] = true) (u₀ : Val) :
    (Fld.repeated elem c p).clearVal u₀ = .list [] := by
  cases c with
  | fixed n array =>
    have hn : 0 = n := by simpa [Container.holds] using hc
    subst hn
    obtain ⟨clear, hclear⟩ : ∃ clear, p.pClearVal = some clear := by
      have hwf := Fld.all_self hf
      simp only [Fld.wellFormed, Bool.and_eq_true] at hwf
      exact Option.isSome_iff_exists.mp hwf.2
    obtain ⟨vs, hvs, hlen⟩ := hplain.2 clear hclear u₀
    rw [List.eq_nil_of_length_eq_zero hlen] at hvs
    simp [Fld.clearVal, hclear, hvs]
  | _ =>
    have hnone : p.pClearVal = none := hplain.2.1
    simp [Fld.clearVal, hnone]

theorem repeated_restores (hf : (Fld.repeated elem c p).wf = true)
    (hplain : (Fld.repeated elem c p).Plain) (htyped : elem.hasWireType = true)
    (hback : elem.ReadsBack debug) : (Fld.repeated elem c p).Restores debug := by
  intro d u hu hlt
  have he := (Fld.wf_repeated hf).2.1
  have hval := Fld.fitsVal_repeated hf hu
  obtain ⟨vs, rfl, hc, hfit⟩ : ∃ vs, u = .list vs ∧ c.holds vs = true ∧
      ∀ e ∈ vs, elem.fitsVal e = true := by
    cases u <;> simp [Fld.fitsVal] at hval
    exact ⟨_, rfl, hval⟩
  by_cases hp : elem.isPacked = true
  · exact Or.inr (packed_comesBack he hp htyped hback hc hfit hlt)
  · rw [Bool.not_eq_true] at hp
    by_cases hne : vs = []
    · subst hne
      exact Or.inl ⟨encoding_unpacked he hp, rfl, clearVal_nil hf hplain hc⟩
    · exact Or.inr (unpacked_comesBack he hp hback hc hfit hne hlt)

end Repeated

section Oneof

variable {p : Params} {mems : List Fld} {m : Machine}

/-- The reader of the active member of a oneof. -/
theorem exists_member {i I : ℕ} {w : Val} (hmems : ∀ g ∈ mems, g.isElement = true)
    (hfit : Fld.fitsAt mems i w = true) :
    ∃ g ∈ mems, (g, oneofRead g (I + i) (g.reader m)) ∈
        mems.zip (oneofReads I mems (Fld.injectedFldReads m mems)) ∧
      g.fitsVal w = true ∧ ∀ cut, Fld.wireAt cut mems i w = g.wire cut false false [] w := by
  induction mems generalizing i I with
  | nil => simp [Fld.fitsAt] at hfit
  | cons g gs ih =>
    have hread : g.injectedFldRead m = [g.reader m] :=
      Fld.injectedFldRead_single (isSingle_of_isElement (hmems g (by simp)))
    rw [Fld.injectedFldReads, oneofReads, List.zip_cons_cons]
    cases i with
    | zero =>
      refine ⟨g, by simp, ?_, by simpa [Fld.fitsAt] using hfit, fun cut => rfl⟩
      rw [hread]
      exact List.mem_cons_self
    | succ i =>
      obtain ⟨g', hg', hzip, hval, hwire⟩ := ih (I := I + 1) (i := i)
        (fun g hg => hmems g (by simp [hg])) (by simpa [Fld.fitsAt] using hfit)
      refine ⟨g', by simp [hg'], ?_, hval, fun cut => hwire cut⟩
      rw [show I + (i + 1) = I + 1 + i by omega]
      exact List.mem_cons_of_mem _ hzip

theorem oneof_restores (hf : (Fld.oneof p mems).wf = true)
    (hback : ∀ g ∈ mems, g.ReadsBack debug) : (Fld.oneof p mems).Restores debug := by
  intro d u hu hlt
  have hval := Fld.fitsVal_oneof hf hu
  cases u with
  | oneof i w =>
    cases i with
    | zero =>
      cases w <;> simp [Fld.fitsVal] at hval
      refine Or.inl ⟨?_, rfl, fun _ => rfl⟩
      simp [Fld.wire, Val.active]
    | succ i =>
      obtain ⟨g, hg, hzip, hgw, hwire⟩ := exists_member (m := .build debug) (I := 0)
        (Fld.wf_oneof hf).2.1 (by simpa [Fld.fitsVal] using hval)
      have he := (Fld.wf_oneof hf).2.1 g hg
      have hhas := Fld.hasVal_of_not_optional (Fld.isOptional_of_isElement he) [] w
      have henc : (Fld.oneof p mems).encoding false false d (.oneof (i + 1) w) =
          varintBytes g.tag ++ g.encoding true false [] w := by
        rw [← g.encoding_single (isSingle_of_isElement he) hhas]
        exact Eq.trans (by simp [Fld.wire, Val.active]) (hwire _)
      rw [henc, List.length_append] at hlt
      have hmem : g.fitsMember w = true := by
        rw [Fld.fitsMember_of_isElement he]
        exact hgw
      refine Or.inr ⟨g, _, g.encoding true false [] w, hzip, henc, ?_⟩
      intro u₀ x l _
      have hread := hback g hg [] w hmem hhas (by omega)
      unfold oneofRead
      dsimp only
      rw [hread _ x _ (Nat.le_add_right _ _), Nat.zero_add]
      rfl
  | _ => simp [Fld.fitsVal] at hval

end Oneof

end Fields

end Jkl.Pb
