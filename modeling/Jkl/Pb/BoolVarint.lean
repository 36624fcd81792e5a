import Jkl.Pb.Blocks
import Jkl.Pb.PackedSet

/-! Bools that are longer than one byte. A bool is a varint on the wire, of which `read_impl` takes
the first byte. -/
namespace Jkl.Pb
open Base128

namespace Val

/-- What a bool was read as: a number other than 0. -/
def truth : Val → Bool
  | .int x => x ≠ 0
  | .some v => truth v
  | .oneof _ v => truth v
  | _ => false

def truths (v : Val) : List Bool := v.elems.map truth

end Val

/-- The canonical encoding of the bool that a varint stands for. -/
def canonBool (p : List UInt8) : List UInt8 := [if value p = 0 then 0 else 1]

/-- A case of a message that reads a bool, into its own member or into one of a oneof. -/
def IsBoolCase (m : Machine) (flds : List Fld) (c : Case) : Prop :=
  ∃ f id ty p, flds[c.idx]? = some f ∧
    (Fld.varint id .bool ty p, c.read) ∈ f.injectedFlds.zip (f.injectedFldRead m)

section Message

/-- The loop over the fields of a message, whose unread bytes are `mem` and `l` more. -/
abbrev atField (mem x : List UInt8) (l n : ℕ) (vs : List Val) (bits : Bits) : MsgState :=
  ⟨mem ++ x, mem.length + l, n, vs, bits⟩

/-- A read that has moved `k` bytes further. -/
def moved (k : ℕ) : MsgRes → MsgRes
  | .ok n a => .ok (n + k) a
  | r => r

/-- A bool field with the tag `q` and the varint `p` is read as one varint, to whether it is not 0,
and what comes after it is read as if its canonical encoding were there. -/
structure ReadsBool (debug : Bool) (flds : List Fld) (c : Case) (q p x : List UInt8) (l n : ℕ)
    (vs : List Val) (bits : Bits) : Prop where
  turn : ∃ v, v.truth = decide (value p ≠ 0) ∧
    msgTurn (.build debug) flds (casesOf (.build debug) flds) (atField (q ++ p) x l n vs bits) =
      .next ⟨x, l, n + (q ++ p).length, vs.set c.idx v, bits.set c.idx⟩
  rest : ∀ r, Loop.Ends (msgTurn (.build debug) flds (casesOf (.build debug) flds))
      (atField (q ++ canonBool p) x l n vs bits) r →
    Loop.Ends (msgTurn (.build debug) flds (casesOf (.build debug) flds))
      (atField (q ++ p) x l n vs bits) (moved (p.length - 1) r)

variable {debug : Bool} {flds : List Fld} {c : Case} {q p x : List UInt8} {l n : ℕ}
  {vs : List Val} {bits : Bits}

/-- A bool in another integral type. -/
def boolIn (ty : CInt) (t : Bool) : Val := .int (ty.cast (if t then 1 else 0))

theorem boolIn_cast (ty : CInt) (b : UInt8) :
    .int (ty.cast (CInt.bool.cast b.toNat)) = boolIn ty (decide (b.toNat ≠ 0)) := by
  by_cases hb : b.toNat = 0
  · simp [boolIn, CInt.cast, hb]
  · simp [boolIn, CInt.cast, hb]

theorem truth_boolIn (ty : CInt) (t : Bool) : (boolIn ty t).truth = t := by
  cases t <;> cases ty <;> decide

theorem truth_wrap (p : Params) (v : Val) : (p.wrap v).truth = v.truth := by
  unfold Params.wrap
  split_ifs
  · rfl
  · rfl

/-- The reader of a bool takes one byte, whatever it is. -/
theorem boolCase_read (hflds : ∀ f ∈ flds, f.wf = true) (hc : IsBoolCase (.build debug) flds c)
    (u : Val) : ∃ put : Bool → Val, (∀ t, (put t).truth = t) ∧
      ∀ b mem lim, 0 < lim → c.read (b :: mem) lim u = .ok 1 (put (decide (b.toNat ≠ 0))) := by
  obtain ⟨f, id, ty, par, hf, hzip⟩ := hc
  have hwf := hflds f (List.mem_of_getElem? hf)
  have htruth : ∀ t, (par.wrap (boolIn ty t)).truth = t := by
    intro t
    rw [truth_wrap, truth_boolIn]
  have hread : ∀ (b : UInt8) mem lim w, 0 < lim →
      varintRead (.build debug) .bool ty par (b :: mem) lim w =
        .ok 1 (par.wrap (boolIn ty (decide (b.toNat ≠ 0)))) := by
    intro b mem lim w hlim
    rw [varintRead_bool, if_pos hlim]
    exact congrArg (fun v => Res.ok 1 (par.wrap v)) (boolIn_cast ty b)
  cases f with
  | oneof op mems =>
    obtain ⟨-, helem, -⟩ := Fld.wf_oneof hwf
    have hs : ∀ f ∈ mems, f.isSingle = true := fun f hf => isSingle_of_isElement (helem f hf)
    obtain ⟨-, J, hJ⟩ := mem_oneofReads hs hzip
    refine ⟨fun t => .oneof (J + 1) (par.wrap (boolIn ty t)), htruth, ?_⟩
    intro b mem lim hlim
    rw [hJ]
    exact congrArg (Res.within (Val.oneof (J + 1))) (hread b mem lim _ hlim)
  | repeated elem cont rp => simp [Fld.injectedFlds, Fld.injectedFldRead] at hzip
  | varint id' ty' ct' p' =>
    have heq : c.read = varintRead (.build debug) .bool ty par := by
      simp only [Fld.injectedFlds, Fld.injectedFldRead, List.zip_cons_cons, List.zip_nil_left,
        List.mem_singleton, Prod.mk.injEq, Fld.varint.injEq] at hzip
      obtain ⟨⟨-, rfl, rfl, rfl⟩, h⟩ := hzip
      exact h
    refine ⟨fun t => par.wrap (boolIn ty t), htruth, ?_⟩
    intro b mem lim hlim
    rw [heq]
    exact hread b mem lim u hlim
  | fixed | bytes | message => simp [Fld.injectedFlds, Fld.injectedFldRead] at hzip

/-- The turn at a bool goes on behind its first byte. -/
theorem boolTurn {put : Bool → Val}
    (hread : ∀ b mem lim, 0 < lim →
      c.read (b :: mem) lim (vs.getD c.idx .none) = .ok 1 (put (decide (b.toNat ≠ 0))))
    (hq : Numeral 32 q) (hown : ownCase (casesOf (.build debug) flds) (value q) = some c)
    (b : UInt8) (p : List UInt8) :
    msgTurn (.build debug) flds (casesOf (.build debug) flds)
        (atField (q ++ b :: p) x l n vs bits) =
      .next ⟨p ++ x, p.length + l, n + (q.length + 1), vs.set c.idx (put (decide (b.toNat ≠ 0))),
        bits.set c.idx⟩ := by
  have hfull : ((Machine.build debug).traps .refill && isFull flds bits c.idx) = false := by
    show (debug && false && isFull flds bits c.idx) = false
    simp
  have hlim : q.length + [b].length ≤ (q ++ b :: p).length + l := by
    simp only [List.length_append, List.length_cons, List.length_nil]
    omega
  have hone : c.read ([b] ++ (p ++ x)) ((q ++ b :: p).length + l - q.length) (vs.getD c.idx .none) =
      .ok [b].length (put (decide (b.toNat ≠ 0))) := by
    apply hread
    simp only [List.length_append, List.length_cons]
    omega
  have hturn := msgTurn_own (n := n) hq hlim hown hfull hone
  have hleft : (q ++ b :: p).length + l - (q.length + [b].length) = p.length + l := by
    simp only [List.length_append, List.length_cons, List.length_nil]
    omega
  rw [hleft] at hturn
  have hmem : q ++ b :: p ++ x = q ++ [b] ++ (p ++ x) := by simp
  rw [atField, hmem]
  exact hturn

/-- A bool is read whole exactly if it is one byte long. -/
theorem readsBool_iff (hflds : ∀ f ∈ flds, f.wf = true) (hc : IsBoolCase (.build debug) flds c)
    (hq : Numeral 32 q) (hown : ownCase (casesOf (.build debug) flds) (value q) = some c)
    (hp : Numeral 64 p) : ReadsBool debug flds c q p x l n vs bits ↔ p.length = 1 := by
  obtain ⟨put, htruth, hread⟩ := boolCase_read hflds hc (vs.getD c.idx .none)
  constructor
  · intro h
    obtain ⟨v, -, hturn⟩ := h.turn
    cases p with
    | nil => exact hp.1.elim
    | cons b p =>
      rw [boolTurn (x := x) (l := l) (n := n) hread hq hown] at hturn
      have hmem := congrArg (fun s => s.mem.length) (Loop.Turn.next.inj hturn)
      simp only [List.length_append] at hmem
      rw [List.length_cons]
      omega
  · intro hone
    obtain ⟨b, rfl⟩ := List.length_eq_one_iff.mp hone
    have hb : value [b] = b.toNat := by
      have hsmall := small_of_length hp.1
      simp only [value]
      omega
    have hturn : msgTurn (.build debug) flds (casesOf (.build debug) flds)
        (atField (q ++ [b]) x l n vs bits) = _ := boolTurn hread hq hown b []
    have hcanon : msgTurn (.build debug) flds (casesOf (.build debug) flds)
        (atField (q ++ canonBool [b]) x l n vs bits) = _ :=
      boolTurn hread hq hown (if value [b] = 0 then 0 else 1) []
    have hput : decide ((if value [b] = 0 then (0 : UInt8) else 1).toNat ≠ 0) =
        decide (b.toNat ≠ 0) := by
      rw [hb]
      split_ifs with h <;> simp [h]
    rw [hput] at hcanon
    constructor
    · refine ⟨put (decide (b.toNat ≠ 0)), ?_, ?_⟩
      · rw [htruth, hb]
      · rw [hturn]
        simp
    · intro r hr
      have hsame := (Loop.ends_iff_of_next hcanon).mp hr
      have hends := (Loop.ends_iff_of_next hturn).mpr hsame
      cases r <;> exact hends

end Message

section Packed

/-- The bools that these bytes are all have a place in the container. -/
def Container.TakesBools (ty : CInt) (bs : List UInt8) : Container → Prop
  | .fixed n _ => bs.length = n
  | .set o => Distinct o (byteBools ty bs)
  | _ => True

/-- What a container then holds, in its order. -/
def Container.keptBools (ty : CInt) (bs : List UInt8) : Container → List Bool
  | .set o => ((byteBools ty bs).foldl (Container.set o).add []).map Val.truth
  | _ => bs.map fun b => decide (b.toNat ≠ 0)

def Container.isSequence : Container → Bool
  | .vec _ | .fixed .. => true
  | _ => false

/-- A read of the packed field `elem`, with the length `q` and the payload `bs`. -/
abbrev packedRead (debug : Bool) (elem : Fld) (c : Container) (q bs x : List UInt8) (l : ℕ)
    (u : Val) : Rd :=
  repeatedRead (.build debug) elem c (elem.reader (.build debug)) (q ++ bs ++ x)
    (q.length + bs.length + l) u

/-- A packed repeated bool that consists of the varints `ps` is read as if their canonical
encodings were there, behind their length `q'`: one element for each varint, or refused alike. -/
def ReadsBools (debug : Bool) (elem : Fld) (c : Container) (ps : List (List UInt8))
    (q q' x : List UInt8) (l : ℕ) (u : Val) : Prop :=
  match packedRead debug elem c q' (ps.flatMap canonBool) x l u with
  | .ok _ v' => ∃ v, packedRead debug elem c q ps.flatten x l u =
      .ok (q.length + ps.flatten.length) v ∧ v.truths = v'.truths ∧
      (c.isSequence = true → v.truths = ps.map fun p => decide (value p ≠ 0))
  | .err (e, _) => ∃ v, packedRead debug elem c q ps.flatten x l u = .err (e, v)
  | .stop _ => False

variable {debug : Bool} {id : ℕ} {ty : CInt} {p par : Params} {c : Container} {q bs x : List UInt8}
  {l : ℕ} {u : Val}

theorem byteBools_eq (ty : CInt) (bs : List UInt8) :
    byteBools ty bs = (bs.map fun b => decide (b.toNat ≠ 0)).map (boolIn ty) := by
  rw [byteBools, List.map_map]
  exact List.map_congr_left fun b _ => boolIn_cast ty b

theorem byteBools_truth (ty : CInt) (bs : List UInt8) :
    (byteBools ty bs).map Val.truth = bs.map fun b => decide (b.toNat ≠ 0) := by
  rw [byteBools_eq, List.map_map]
  exact (List.map_congr_left fun t _ => truth_boolIn ty t).trans (List.map_id _)

/-- `memcpy` into an array of bytes or bools keeps what is 0 and what is not. -/
theorem objectVals_truth (hty : ty.bits = 8) (bs : List UInt8) :
    (objectVals ty 1 bs.length bs).map Val.truth = bs.map fun b => decide (b.toNat ≠ 0) := by
  induction bs with
  | nil => rfl
  | cons b bs ih =>
    have hlt := b.toNat_lt
    have hb : (Val.int (if ty = .bool then (LittleEndian.load [b] : ℤ)
        else ty.cast (LittleEndian.load [b]))).truth = decide (b.toNat ≠ 0) := by
      have hload : LittleEndian.load [b] = b.toNat := by simp [LittleEndian.load]
      rw [hload, Val.truth]
      cases ty <;> simp [CInt.bits] at hty <;> simp [CInt.cast, CInt.signed, CInt.bits] <;> omega
    simp only [List.length_cons, objectVals, List.map_cons, List.take_succ_cons, List.take_zero,
      List.drop_succ_cons, List.drop_zero]
    rw [hb, ih]

theorem staticFldSize_bool (he : (Fld.varint id .bool ty p).isElement = true) :
    (Fld.varint id .bool ty p).staticFldSize = 1 := by
  simp [Fld.staticFldSize, Fld.wireSize, isStaticLen_bool he, Fld.isPacked, Fld.wireType,
    tagWireSize]

/-- The bytes of a payload in a sequence with as many elements. -/
theorem bools_into (debug : Bool) (he : (Fld.varint id .bool ty p).isElement = true) {es : List Val}
    (hes : es.length = bs.length) :
    ∃ vs, (if (Fld.varint id .bool ty p).sameAsWireLayout c then
        match load bs.length (bs ++ x) with
        | none => .stop .fault
        | some bs' => .ok bs.length (.list (objectVals (Fld.varint id .bool ty p).elemType
            (Fld.varint id .bool ty p).staticFldSize bs.length bs'))
      else listOf (readEach (.build debug) (.varint id .bool ty p)
        ((Fld.varint id .bool ty p).reader (.build debug)) true es (bs ++ x) bs.length) : Rd) =
        .ok bs.length (.list vs) ∧ vs.map Val.truth = bs.map fun b => decide (b.toNat ≠ 0) := by
  split_ifs with hs
  · have hty : ty.bits = 8 := by
      simp [Fld.sameAsWireLayout] at hs
      exact hs.2.2
    have hload : load bs.length (bs ++ x) = some bs := by
      rw [load, if_pos (by simp), List.take_left]
    rw [hload, staticFldSize_bool he]
    exact ⟨_, rfl, objectVals_truth hty bs⟩
  · have hlen : es.length = (bs.map fun b => [b]).length := by
      rw [hes, List.length_map]
    have heach := (readsPieces debug he rfl).readEach (m := .build debug)
      (show (Fld.varint id .bool ty p).isPacked = true from rfl) (piece_bools bs) x true hlen
    rw [flatten_singles, pieceVal_bools] at heach
    rw [heach]
    exact ⟨_, rfl, byteBools_truth ty bs⟩

/-- Bools are read as bytes: into a container that has a place for each of them. -/
theorem packedRead_bools (debug : Bool)
    (hwf : (Fld.repeated (.varint id .bool ty p) c par).wf = true) (hq : Numeral 32 q)
    (hlen : value q = bs.length) (x : List UInt8) (l : ℕ) (u : Val) :
    (c.TakesBools ty bs → ∃ vs, packedRead debug (.varint id .bool ty p) c q bs x l u =
        .ok (q.length + bs.length) (.list vs) ∧ vs.map Val.truth = c.keptBools ty bs) ∧
    (¬ c.TakesBools ty bs → ∃ v, packedRead debug (.varint id .bool ty p) c q bs x l u =
        .err (.invalidLength, v)) := by
  have he := (Fld.wf_repeated hwf).2.1
  have hstatic := isStaticLen_bool he
  have hone := staticFldSize_bool he
  have hdvd : ((Fld.varint id .bool ty p).isStaticLen &&
      bs.length % (Fld.varint id .bool ty p).staticFldSize ≠ 0) = false := by
    rw [hone]
    simp [Nat.mod_one]
  have hread := repeatedRead_packed (m := .build debug) (c := c) (x := x) (u := u)
    (show (Fld.varint id .bool ty p).isPacked = true from rfl) hq hlen
    (Nat.le_add_right (q.length + bs.length) l) hdvd
  have hpacked : ((Fld.varint id .bool ty p).isPacked && (Fld.varint id .bool ty p).isStaticLen) =
      true := hstatic
  have hcnt : bs.length / (Fld.varint id .bool ty p).staticFldSize = bs.length := by
    rw [hone, Nat.div_one]
  cases c with
  | set o =>
    obtain ⟨hok, hlost⟩ := set_bools debug (o := o) (x := x) (u := u) he hq hlen
      (Nat.le_add_right (q.length + bs.length) l)
    exact ⟨fun hd => ⟨_, hok hd, rfl⟩, hlost⟩
  | map o => simp [Fld.wf, Fld.all, Fld.wellFormed] at hwf
  | vec buf =>
    refine ⟨fun _ => ?_, fun hno => absurd trivial hno⟩
    have hes : ((u.elems ++ List.replicate bs.length (Fld.varint id .bool ty p).freshVal).take
        bs.length).length = bs.length := by simp
    obtain ⟨vs, hvs, htruths⟩ := bools_into debug (c := .vec buf) (x := x) he hes
    refine ⟨vs, ?_, htruths⟩
    rw [packedRead, hread]
    simp only [readElems, hpacked, if_true, readStatic, hcnt]
    exact congrArg (Res.advance q.length) hvs
  | fixed n array =>
    constructor
    · intro htakes
      have hes : (u.elemsOf n).length = bs.length := by
        have htakes : bs.length = n := htakes
        simp [Val.elemsOf, htakes]
      obtain ⟨vs, hvs, htruths⟩ := bools_into debug (c := .fixed n array) (x := x) he hes
      refine ⟨vs, ?_, htruths⟩
      rw [packedRead, hread]
      simp only [readElems, hpacked, if_true, readStatic, hcnt]
      rw [if_pos (show bs.length = n from htakes)]
      exact congrArg (Res.advance q.length) hvs
    · intro hno
      refine ⟨u, ?_⟩
      rw [packedRead, hread]
      simp only [readElems, hpacked, if_true, readStatic, hcnt]
      rw [if_neg (show ¬ bs.length = n from hno)]
      rfl

/-- A container that has a place for each bool keeps as many. -/
theorem length_keptBools (h : c.TakesBools ty bs) : (c.keptBools ty bs).length = bs.length := by
  cases c with
  | set o =>
    have hd : Distinct o (byteBools ty bs) := h
    rw [Container.keptBools, List.length_map, (length_set_iff _).mpr hd]
    exact List.length_map _
  | _ => exact List.length_map _

theorem canon_truths (ps : List (List UInt8)) :
    ((ps.flatMap canonBool).map fun b => decide (b.toNat ≠ 0)) =
      ps.map fun p => decide (value p ≠ 0) := by
  induction ps with
  | nil => rfl
  | cons p ps ih =>
    have hone : (canonBool p).map (fun b => decide (b.toNat ≠ 0)) = [decide (value p ≠ 0)] := by
      by_cases h : value p = 0 <;> simp [canonBool, h]
    rw [List.flatMap_cons, List.map_append, ih, hone]
    rfl

theorem length_canon (ps : List (List UInt8)) : (ps.flatMap canonBool).length = ps.length := by
  have h := congrArg List.length (canon_truths ps)
  rwa [List.length_map, List.length_map] at h

/-- Varints of one byte are what their bytes are read as. -/
theorem single_truths {ps : List (List UInt8)} (hps : ∀ p ∈ ps, Numeral 64 p)
    (hone : ∀ p ∈ ps, p.length = 1) :
    (ps.flatten.map fun b => decide (b.toNat ≠ 0)) = ps.map fun p => decide (value p ≠ 0) := by
  induction ps with
  | nil => rfl
  | cons p ps ih =>
    obtain ⟨b, rfl⟩ := List.length_eq_one_iff.mp (hone p (by simp))
    have hsmall := small_of_length (hps [b] (by simp)).1
    have hv : value [b] = b.toNat := by
      simp only [value]
      omega
    have hrest := ih (fun r hr => hps r (by simp [hr])) fun r hr => hone r (by simp [hr])
    have hhead : ([b].map fun b => decide (b.toNat ≠ 0)) = [decide (value [b] ≠ 0)] := by
      rw [hv]
      rfl
    rw [List.flatten_cons, List.map_append, hrest, hhead]
    rfl

theorem takesBools_congr {bs bs' : List UInt8}
    (h : (bs.map fun b => decide (b.toNat ≠ 0)) = bs'.map fun b => decide (b.toNat ≠ 0)) :
    (c.TakesBools ty bs ↔ c.TakesBools ty bs') ∧ c.keptBools ty bs = c.keptBools ty bs' := by
  have hlen : bs.length = bs'.length := by
    have := congrArg List.length h
    rwa [List.length_map, List.length_map] at this
  have hbools : byteBools ty bs = byteBools ty bs' := by
    rw [byteBools_eq, byteBools_eq, h]
  cases c with
  | set o =>
    simp only [Container.TakesBools, Container.keptBools, hbools]
    trivial
  | fixed n array =>
    simp only [Container.TakesBools, Container.keptBools, hlen]
    exact ⟨trivial, h⟩
  | _ => exact ⟨Iff.rfl, h⟩

theorem keptBools_of_isSequence (h : c.isSequence = true) (ty : CInt) (bs : List UInt8) :
    c.keptBools ty bs = bs.map fun b => decide (b.toNat ≠ 0) := by
  cases c with
  | set | map => simp [Container.isSequence] at h
  | _ => rfl

/-- A packed repeated bool is read as its varints say exactly if each of them is one byte long, or
the container has no place for the bools either way. -/
theorem readsBools_iff {ps : List (List UInt8)} {q' : List UInt8}
    (hwf : (Fld.repeated (.varint id .bool ty p) c par).wf = true) (hps : ∀ p ∈ ps, Numeral 64 p)
    (hq : Numeral 32 q) (hlen : value q = ps.flatten.length) (hq' : Numeral 32 q')
    (hlen' : value q' = ps.length) :
    ReadsBools debug (.varint id .bool ty p) c ps q q' x l u ↔
      (∀ p ∈ ps, p.length = 1) ∨
        ¬ c.TakesBools ty ps.flatten ∧ ¬ c.TakesBools ty (ps.flatMap canonBool) := by
  have hcanon : value q' = (ps.flatMap canonBool).length := by rw [hlen', length_canon]
  obtain ⟨hok, hno⟩ := packedRead_bools debug hwf hq hlen x l u
  obtain ⟨hok', hno'⟩ := packedRead_bools debug hwf hq' hcanon x l u
  have hne : ∀ p ∈ ps, p ≠ [] := fun p hp => (hps p hp).1.ne_nil
  unfold ReadsBools
  constructor
  · intro h
    by_cases htakes' : c.TakesBools ty (ps.flatMap canonBool)
    · left
      obtain ⟨vs', hvs', hkept'⟩ := hok' htakes'
      rw [hvs'] at h
      obtain ⟨v, hv, htruths, -⟩ := h
      have htakes : c.TakesBools ty ps.flatten := by
        by_contra hn
        obtain ⟨v₀, hv₀⟩ := hno hn
        rw [hv₀] at hv
        cases hv
      obtain ⟨vs, hvs, hkept⟩ := hok htakes
      rw [hvs] at hv
      cases hv
      change vs.map Val.truth = vs'.map Val.truth at htruths
      rw [hkept, hkept'] at htruths
      have hlens := congrArg List.length htruths
      rw [length_keptBools htakes, length_keptBools htakes', length_canon] at hlens
      exact length_eq_one_of_length_flatten hne hlens
    · right
      refine ⟨fun htakes => ?_, htakes'⟩
      obtain ⟨v', hv'⟩ := hno' htakes'
      obtain ⟨vs, hvs, -⟩ := hok htakes
      rw [hv', hvs] at h
      obtain ⟨v, hv⟩ := h
      cases hv
  · intro h
    by_cases htakes' : c.TakesBools ty (ps.flatMap canonBool)
    · have hone := h.resolve_right fun hn => hn.2 htakes'
      have hsame := (single_truths hps hone).trans (canon_truths ps).symm
      obtain ⟨htakes, hkept⟩ := takesBools_congr (c := c) hsame
      obtain ⟨vs, hvs, hvk⟩ := hok (htakes.mpr htakes')
      obtain ⟨vs', hvs', hvk'⟩ := hok' htakes'
      rw [hvs', hvs]
      refine ⟨.list vs, rfl, ?_, ?_⟩
      · change vs.map Val.truth = vs'.map Val.truth
        rw [hvk, hvk', hkept]
      · intro hseq
        change vs.map Val.truth = _
        rw [hvk, keptBools_of_isSequence hseq, single_truths hps hone]
    · have htakes : ¬ c.TakesBools ty ps.flatten := by
        rcases h with hone | hn
        · have hsame := (single_truths hps hone).trans (canon_truths ps).symm
          exact fun ht => htakes' ((takesBools_congr hsame).1.mp ht)
        · exact hn.1
      obtain ⟨v, hv⟩ := hno htakes
      obtain ⟨v', hv'⟩ := hno' htakes'
      rw [hv', hv]
      exact ⟨v, rfl⟩

end Packed

/-- Bools are read as varints exactly if they are one byte long, in a message and in a packed field
that holds them. -/
theorem boolVarints_iff (debug : Bool) :
    (∀ (flds : List Fld) (c : Case) (q p x : List UInt8) (l n : ℕ) (vs : List Val) (bits : Bits),
      (∀ f ∈ flds, f.wf = true) → IsBoolCase (.build debug) flds c → Numeral 32 q →
      ownCase (casesOf (.build debug) flds) (value q) = some c → Numeral 64 p →
      (ReadsBool debug flds c q p x l n vs bits ↔ p.length = 1)) ∧
    ∀ (id : ℕ) (ty : CInt) (p par : Params) (c : Container) (ps : List (List UInt8))
      (q q' x : List UInt8) (l : ℕ) (u : Val),
      (Fld.repeated (.varint id .bool ty p) c par).wf = true → (∀ p ∈ ps, Numeral 64 p) →
      Numeral 32 q → value q = ps.flatten.length → Numeral 32 q' → value q' = ps.length →
      (ReadsBools debug (.varint id .bool ty p) c ps q q' x l u ↔
        (∀ p ∈ ps, p.length = 1) ∨
          ¬ c.TakesBools ty ps.flatten ∧ ¬ c.TakesBools ty (ps.flatMap canonBool)) := by
  constructor
  · intro flds c q p x l n vs bits hflds hc hq hown hp
    exact readsBool_iff hflds hc hq hown hp
  · intro id ty p par c ps q q' x l u hwf hps hq hlen hq' hlen'
    exact readsBools_iff hwf hps hq hlen hq' hlen'

/-- `pb_bool<"b", 1>` in a `bool`. -/
abbrev flag : List Fld := [.varint 1 .bool .bool .null]

/-- What reads it. -/
abbrev flagCase : Case := ⟨8, 0, varintRead (.build false) .bool .bool .null⟩

theorem flag_isBoolCase : IsBoolCase (.build false) flag flagCase :=
  ⟨.varint 1 .bool .bool .null, 1, .bool, .null, rfl, List.mem_singleton.mpr rfl⟩

theorem boolVarints_flag :
    (ReadsBool false flag flagCase [8] [1] [] 0 0 [.int 0] (fun _ => false) ↔ [1].length = 1) ∧
    (ReadsBools false (.varint 1 .bool .bool .null) (.vec true) [[1], [0]] [2] [2] [] 0 (.list []) ↔
      (∀ p ∈ ([[1], [0]] : List (List UInt8)), p.length = 1) ∨
        ¬ (Container.vec true).TakesBools .bool [[1], [0]].flatten ∧
        ¬ (Container.vec true).TakesBools .bool ([[1], [0]].flatMap canonBool)) :=
  ⟨(boolVarints_iff false).1 flag flagCase [8] [1] [] 0 0 [.int 0] (fun _ => false) (by decide)
      flag_isBoolCase (by decide) rfl (by decide),
    (boolVarints_iff false).2 1 .bool .null .null (.vec true) [[1], [0]] [2] [2] [] 0 (.list [])
      (by decide) (by decide) (by decide) (by decide) (by decide) (by decide)⟩

/-- The number 128 is a bool of two bytes, and so is a 0 with a group too many. -/
theorem not_boolVarints :
    ¬ ReadsBool false flag flagCase [8] [0x80, 0x01] [] 0 0 [.int 0] (fun _ => false) ∧
    ¬ ReadsBools false (.varint 1 .bool .bool .null) (.vec true) [[0x80, 0x00]] [2] [1] [] 0
      (.list []) := by
  constructor
  · rw [readsBool_iff (by decide) flag_isBoolCase (by decide) rfl (by decide)]
    decide
  · have hwf : (Fld.repeated (.varint 1 .bool .bool .null) (.vec true) .null).wf = true := by decide
    rw [readsBools_iff hwf (by decide) (by decide) (by decide) (by decide) (by decide)]
    simp [Container.TakesBools]

end Jkl.Pb
