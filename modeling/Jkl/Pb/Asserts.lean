import Jkl.Pb.Sizing

/-! The assertions of the writer, which a release build does not check. -/
namespace Jkl.Pb
open Base128

namespace Node

/-- The assertions of one call of `wire_size` and `write_impl`: that elements of no fixed size take
some room, that `memcpy` copies the whole range, and that `const_val` has a value to return. -/
def Asserts (n : Node) : Prop :=
  match n.fld with
  | .repeated elem c _ =>
    (elem.isStaticLen = false →
      0 < (wireSizes (elem.wireSize elem.isPacked false []) n.u.elems).1) ∧
    (elem.sameAsWireLayout c = true →
      (elem.objectBytes n.u.elems).length = elem.packedStaticLen c n.u)
  | f => (n.skipTag || f.hasVal n.d n.u) = true → f.inOptional = true → n.u.isSome = true

/-- A range whose elements have no fixed size holds one. -/
def NotEmpty (n : Node) : Prop :=
  match n.fld with
  | .repeated elem _ _ => elem.isStaticLen = false → n.u.elems ≠ []
  | _ => True

end Node

/-- No assertion of a write fails. -/
structure Schema.AssertsHold (s : Schema) (skipLen : Bool) (v : Val) : Prop where
  calls : ∀ n ∈ s.fld.nodes true skipLen [] v, n.Asserts
  filled : (s.fld.doWrite true skipLen v).lenCache.length = s.fld.lenCacheCnt skipLen [] v
  atEnd : (s.fld.doWrite true skipLen v).out.bytes.length = (s.fld.doWrite true skipLen v).total
  taken : (s.fld.doWrite true skipLen v).out.log.length = s.fld.lenCacheCnt skipLen [] v

namespace Fld

section Short

/- A call under a call whose encoding is short has a short encoding itself. -/

variable {cut : List UInt8 → List UInt8}

theorem nodes_wire_lt (f : Fld) (skipTag skipLen : Bool) (d : List Val) (u : Val)
    (hlt : (f.wire cut skipTag skipLen d u).length < 2 ^ 32) :
    ∀ n ∈ f.nodes skipTag skipLen d u,
      (n.fld.wire cut n.skipTag n.skipLen n.d n.u).length < 2 ^ 32 := by
  induction f using ind generalizing skipTag skipLen d u with
  | varint | fixed | bytes => simpa [nodes] using hlt
  | message id p flds ih =>
    intro n hn
    rw [nodes, List.mem_cons] at hn
    cases hn with
    | inl h =>
      subst h
      exact hlt
    | inr h =>
      split_ifs at h with hv
      · obtain ⟨f, w, hsub, h⟩ := exists_subcall h
        have hl := lt_of_le_of_lt (hsub.length_le cut) (length_wires_lt hv hlt)
        exact ih f hsub.mem false false _ w hl n h
      · simp at h
  | repeated elem c p ih =>
    intro n hn
    simp only [nodes, List.mem_cons, List.mem_flatten, List.mem_map] at hn
    rcases hn with rfl | ⟨l, ⟨v, hv, rfl⟩, h⟩
    · exact hlt
    apply ih elem.isPacked false [] v _ n h
    by_cases hp : elem.isPacked = true
    · have hle := length_wire_scalar_le cut hp elem.isPacked [] v
      omega
    · rw [wire, if_neg hp] at hlt
      exact length_wire_elem_lt hv hlt
  | oneof p mems ih =>
    intro n hn
    rw [nodes, List.mem_cons] at hn
    rw [wire] at hlt
    cases hn with
    | inl h =>
      subst h
      simpa only [wire] using hlt
    | inr h =>
      cases hact : u.active with
      | mk i m =>
        cases i with
        | zero => simp [hact] at h
        | succ i =>
          simp only [hact] at h hlt
          rcases nodesAt_cases mems i m with ⟨hnil, -⟩ | ⟨f, hf, hnodes, -, hwire⟩
          · rw [hnil] at h
            cases h
          · rw [hnodes] at h
            rw [hwire cut] at hlt
            exact ih f hf false false [] m hlt n h

end Short

theorem length_appendVarint_pos (zigzag : Bool) (c : CInt) (x : ℤ) :
    0 < (appendVarint zigzag c x).length := by
  by_cases hc : c = .bool
  · simp [appendVarint, hc]
  · rw [appendVarint_eq hc]
    exact length_encode_pos _

/-- An element is never nothing on the wire. -/
theorem writeImpl_pos {elem : Fld} (he : elem.isElement = true) (v : Val) (lc : List ℕ) :
    0 < (elem.writeImpl elem.isPacked false [] v lc).bytes.length := by
  have hval := hasVal_of_not_optional (isOptional_of_isElement he) [] v
  cases elem with
  | varint id ty c p =>
    have h := length_appendVarint_pos ty.zigzag ty.tar (ty.tar.cast (p.constVal v).toInt)
    simp only [writeImpl, isPacked, wireType, ne_eq, reduceCtorEq, not_false_eq_true, decide_true,
      Bool.true_or, if_true, Out.raw, List.length_append]
    omega
  | fixed id ty c p =>
    have h : 0 < ty.tar.bits / 8 := by cases ty <;> decide
    have hp : (fixed id ty c p).isPacked = true := by cases ty <;> rfl
    simp only [writeImpl, hp, Bool.true_or, if_true, Out.raw, List.length_append, storeLe,
      LittleEndian.length_store]
    omega
  | bytes id b p =>
    have h := length_appendVarint_pos false .u32 (sizeT ((bytes id b p).constVal v).toBytes.length)
    simp only [writeImpl, hval, if_true, Out.raw, List.length_append]
    omega
  | message id p flds =>
    have hhas : p.hasVal [] v = true := hval
    simp only [writeImpl, hhas, Bool.or_true, if_true, Bool.false_eq_true, if_false, Out.raw,
      Out.andThen, List.length_append]
    split_ifs
    · have h := length_appendVarint_pos false .u32
        (subFldsLen flds (p.constVal v).members (p.constVal v).members).1
      simp only [Out.lenStatic, Out.raw, Out.andThen, List.length_append]
      omega
    · have h := length_appendVarint_pos false .u32 (lc.headD 0)
      simp only [Out.lenCached, List.length_append]
      omega
  | repeated | oneof => simp [isElement] at he

theorem writeElems_pos {elem : Fld} (he : elem.isElement = true) {vs : List Val} (hne : vs ≠ [])
    (lc : List ℕ) :
    0 < (writeElems (elem.writeImpl elem.isPacked false []) vs lc).bytes.length := by
  cases vs with
  | nil => exact absurd rfl hne
  | cons v vs =>
    have h := writeImpl_pos he v lc
    simp only [writeElems, Out.andThen, List.length_append]
    omega

/-- A sum that has wrapped around to nothing would not agree with what is written. -/
theorem wireSizes_pos {elem : Fld} {c : Container} {p : Params} {skipTag skipLen : Bool}
    {d : List Val} {u : Val} (he : elem.isElement = true) (hst : elem.isStaticLen = false)
    (hcount : c.count u = u.elems.length)
    (ha : Node.Agrees ⟨repeated elem c p, skipTag, skipLen, d, u⟩) (hne : u.elems ≠ []) :
    0 < (wireSizes (elem.wireSize elem.isPacked false []) u.elems).1 := by
  have hs : ¬ elem.sameAsWireLayout c = true := by
    intro hs
    rw [isStaticLen_of_sameAsWireLayout hs he] at hst
    simp at hst
  by_cases hp : elem.isPacked = true
  · by_contra h0
    have hzero : (wireSizes (elem.wireSize elem.isPacked false []) u.elems).1 = 0 := by omega
    rw [Node.Agrees, wireSize_packed hp hcount, writeImpl_packed hp] at ha
    simp only [hst, Bool.false_eq_true, if_false, Out.raw, Out.andThen, Out.lenCached, writePacked,
      hs, List.length_append, length_writeTag, hzero] at ha
    generalize (if (false || skipLen) = true then
      (wireSizes (elem.wireSize elem.isPacked false []) u.elems).2
      else 0 :: (wireSizes (elem.wireSize elem.isPacked false []) u.elems).2) = slots at ha
    have hle :
        lenDlmWireSize skipTag skipLen elem.id 0 ≤ tagWireSize skipTag elem.id .lenDlm + 1 := by
      have hone : varintWireSize false .u32 (0 : ℕ) = 1 := by decide
      unfold lenDlmWireSize
      apply (Nat.mod_le _ _).trans
      split_ifs <;> omega
    have hlen := length_appendVarint_pos false .u32 (slots.headD 0)
    have helems := writeElems_pos he hne slots.tail
    omega
  · have hsize : ((repeated elem c p).wireSize skipTag skipLen d u).1 =
        (wireSizes (elem.wireSize elem.isPacked false []) u.elems).1 := by
      simp only [wireSize]
      rw [elemsLen_eq elem hcount, if_neg hp]
    have hwrite : ∀ lc, (repeated elem c p).writeImpl skipTag skipLen d u lc =
        writeElems (elem.writeImpl elem.isPacked false []) u.elems lc := by
      intro lc
      simp [writeImpl, hp]
    rw [Node.Agrees, hsize, hwrite] at ha
    rw [ha]
    exact writeElems_pos he hne _

/-- A range that `memcpy` copies has as many bytes as `wire_size` counts for it. -/
theorem length_objectBytes_of_short {elem : Fld} {c : Container} {p : Params}
    {skipTag skipLen : Bool} {d : List Val} {u : Val} (he : elem.isElement = true)
    (hs : elem.sameAsWireLayout c = true) (hcount : c.count u = u.elems.length)
    (hlt : ((repeated elem c p).encoding skipTag skipLen d u).length < 2 ^ 32) :
    (elem.objectBytes u.elems).length = elem.packedStaticLen c u := by
  have hp : elem.isPacked = true := by
    cases elem with
    | varint => rfl
    | fixed id ty => cases ty <;> rfl
    | _ => simp [sameAsWireLayout] at hs
  have hshort : (elem.objectBytes u.elems).length < 2 ^ 32 := by
    rw [encoding, wire, if_pos hp, if_pos hs] at hlt
    simp only [delimited, List.length_append] at hlt
    omega
  rw [packedStaticLen, hcount, ← length_objectBytes hs he, sizeT_of_lt hshort]

/-- The call of a field that agrees with what it writes asserts nothing but that it has elements. -/
theorem asserts_iff {n : Node} (hok : NodeOk wellFormed n) (ha : n.Agrees)
    (hlt : (n.fld.encoding n.skipTag n.skipLen n.d n.u).length < 2 ^ 32) :
    n.Asserts ↔ n.NotEmpty := by
  obtain ⟨f, skipTag, skipLen, d, u⟩ := n
  obtain ⟨hwf, hfit, hskip⟩ := hok
  have hval : (skipTag || f.hasVal d u) = true → f.inOptional = true → u.isSome = true := by
    intro hv hin
    have hopt : f.isOptional = true := by
      by_contra hno
      rw [inOptional_of_not_optional (by simpa using hno)] at hin
      simp at hin
    have hst : skipTag = false := by
      by_contra hst
      rw [hskip (by simpa using hst)] at hopt
      simp at hopt
    rw [hst, Bool.false_or] at hv
    cases f with
    | bytes id b p =>
      simp only [inOptional, Bool.and_eq_true, Bool.not_eq_true'] at hin
      simpa [hasVal, Params.hasVal, hin] using hv
    | _ =>
      simp only [inOptional] at hin
      simpa [hasVal, Params.hasVal, hin] using hv
  cases f with
  | repeated elem c p =>
    simp only [wellFormed, Bool.and_eq_true, Bool.not_eq_true'] at hwf
    have he : elem.isElement = true := hwf.1.1.1.1
    have hopt : p.pOptional = false := hwf.1.1.1.2
    have hval : (repeated elem c p).fitsVal u = true := by
      simpa [fitsMember, inOptional, params, hopt] using hfit
    have hcount : c.count u = u.elems.length := count_eq hval
    constructor
    · intro h hst hnil
      have hpos := h.1 hst
      rw [hnil] at hpos
      simp [wireSizes] at hpos
    · intro h
      constructor
      · intro hst
        exact wireSizes_pos he hst hcount ha (h hst)
      · intro hs
        exact length_objectBytes_of_short he hs hcount hlt
  | varint | fixed | bytes | message | oneof =>
    constructor
    · intro h
      trivial
    · intro h
      exact hval

end Fld

/-- Where the C++ types are the wire types and the encoding is short, a write violates an assertion
exactly where it comes upon an empty range whose elements have no fixed size. -/
theorem Schema.assertsHold_iff (s : Schema) (hs : s.fld.wireTyped = true) (skipLen : Bool) (v : Val)
    (hv : s.fld.fitsVal v = true) (hlt : (s.fld.encoding true skipLen [] v).length < 2 ^ 32) :
    s.AssertsHold skipLen v ↔ ∀ n ∈ s.fld.nodes true skipLen [] v, n.NotEmpty := by
  have hok := Fld.nodes_ok s.fld s.wf s.wf true skipLen (fun _ => rfl) [] v hv
  have hexact : ∀ n ∈ s.fld.nodes true skipLen [] v, n.Exact := by
    intro n hn
    have hnode := Fld.nodes_ok s.fld s.wf hs true skipLen (fun _ => rfl) [] v hv n hn
    exact Fld.exact_of_wireTyped hnode
  have hagree := Fld.nodes_agree_top Fld.cutsAsCopied_self s skipLen hv hexact hlt
  have hshort := Fld.nodes_wire_lt s.fld true skipLen [] v hlt
  have hiff : ∀ n ∈ s.fld.nodes true skipLen [] v, (n.Asserts ↔ n.NotEmpty) := by
    intro n hn
    exact Fld.asserts_iff (hok n hn) (hagree n hn) (hshort n hn)
  constructor
  · intro h n hn
    exact (hiff n hn).mp (h.calls n hn)
  · intro h
    have hfaith := Fld.encoding_faithful s hs skipLen hv hlt
    have hout := hfaith.write_eq []
    rw [List.append_nil] at hout
    have hcnt : (s.fld.wireSize true skipLen [] v).2.length = s.fld.lenCacheCnt skipLen [] v :=
      Fld.length_wireSize_snd s.fld true skipLen [] v
    have hlog : (s.fld.doWrite true skipLen v).out.log =
        (s.fld.wireSize true skipLen [] v).2.map fun n => (n, n) := congrArg Out.log hout
    have hroot := hfaith.agrees (n := ⟨s.fld, true, skipLen, [], v⟩)
    constructor
    · intro n hn
      exact (hiff n hn).mpr (h n hn)
    · exact hcnt
    · exact hroot.symm
    · rw [hlog, List.length_map]
      exact hcnt

/-- A message with a list of names in it. -/
def names : Schema :=
  ⟨[.message 1 .null [.repeated (.bytes 1 ⟨none, 1, false⟩ .null) (.vec false) .null]], none,
    by decide⟩

theorem assertsHold_names :
    names.AssertsHold true (.msg [.msg [.list [.bytes []]]]) ↔
      ∀ n ∈ names.fld.nodes true true [] (.msg [.msg [.list [.bytes []]]]), n.NotEmpty :=
  names.assertsHold_iff (by decide) true _ (by decide) (by decide +kernel)

/-- An empty list of names. -/
theorem not_assertsHold_names :
    names.fld.wireTyped = true ∧ names.fld.fitsVal (.msg [.msg [.list []]]) = true ∧
      (names.fld.encoding true true [] (.msg [.msg [.list []]])).length = 2 ∧
      ¬ names.AssertsHold true (.msg [.msg [.list []]]) := by
  have hlen : (names.fld.encoding true true [] (.msg [.msg [.list []]])).length = 2 := by
    decide +kernel
  refine ⟨by decide, by decide, hlen, ?_⟩
  intro h
  have hmem : Node.mk (.repeated (.bytes 1 ⟨none, 1, false⟩ .null) (.vec false) .null) false false
      [.list []] (.list []) ∈ names.fld.nodes true true [] (.msg [.msg [.list []]]) := by
    simp [names, Schema.fld, topLevel, Fld.nodes, Fld.nodesOf, Params.hasVal, Params.null,
      Params.constVal, Val.members]
  have hpos := (h.calls _ hmem).1 rfl
  simp [Val.elems, wireSizes] at hpos

end Jkl.Pb
