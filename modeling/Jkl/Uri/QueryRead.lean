import Jkl.Uri.QueryPairs
import Jkl.Lib.Loop

/-! Reading a query into a container: the loop that cuts pairs off the front, and the queries
for which these are the pairs between the delimiters. -/
namespace Jkl.Uri

open Loop (Turn Ends)

variable {asserts : Bool} {codec src : Codec} {s t p r k v w : Bytes} {c : Byte}
  {i j m pos : ℕ} {o : Option ℕ} {kv : Bytes × Bytes} {kvs done : List (Bytes × Bytes)}

/-! Positions in a `string_view`; `none` is `npos`. -/

/-- `find(c, pos)`. -/
def findFrom (c : Byte) (pos : ℕ) (s : Bytes) : Option ℕ :=
  ((s.drop pos).findIdx? fun x => x = c).map fun i => pos + i

/-- `substr(pos, n)`, for which `pos` may not be behind the end. -/
def substr (pos : ℕ) (n : Option ℕ) (s : Bytes) : Option Bytes :=
  if pos ≤ s.length then some (n.elim (s.drop pos) fun n => (s.drop pos).take n) else none

/-- `remove_prefix(i + 1)`; one more than `npos` is 0. -/
def removePrefix (i : Option ℕ) (s : Bytes) : Option Bytes :=
  match i with
  | none => some s
  | some i => if i + 1 ≤ s.length then some (s.drop (i + 1)) else none

/-! The loop. -/

/-- The pair at the front, and `i` behind it. -/
def cutPair (s : Bytes) : Option ((Bytes × Bytes) × Option ℕ) :=
  match s.findIdx? fun c => c ∈ lit "=&" with
  | none => some ((s, []), none)
  | some i =>
    if s[i]? = some ('=' : Byte) then
      -- `s.find(i, '&')` takes `i` for the byte and `'&'` for the position
      let j := findFrom (UInt8.ofNat (i + 1)) ('&' : Byte).toNat s
      (substr (i + 1) j s).map fun v => ((s.take i, v), j)
    else some ((s.take i, []), some i)

/-- The pair `emplace` hands to the container. -/
def emplace (asserts : Bool) (codec src : Codec) (kv : Bytes × Bytes) :
    Except Stop (Bytes × Bytes) :=
  if codec = src ∨ codec = .asIs ∨ src = .asIs then .ok kv
  else
    let k := codecCvtAppend asserts .query codec src kv.1
    let v := codecCvtAppend asserts .query codec src kv.2
    match k.stop, v.stop with
    | some e, _ => .error e
    | none, some e => .error e
    | none, none => .ok (k.text, v.text)

/-- A turn of `uri_query_range_or_cont_comp::read` on what is left of the query and what the
container holds. A position behind the end leaves the loop too. -/
def readTurn (asserts : Bool) (codec src : Codec) (q : Bytes × List (Bytes × Bytes)) :
    Turn (Bytes × List (Bytes × Bytes)) (List (Bytes × Bytes) × Option Stop) :=
  if q.1 = [] then .done (q.2, none)
  else
    match cutPair q.1 with
    | none => .done (q.2, some .wild)
    | some (kv, i) =>
      match emplace asserts codec src kv with
      | .error e => .done (q.2, some e)
      | .ok kv' =>
        match removePrefix i q.1 with
        | none => .done (q.2 ++ [kv'], some .wild)
        | some s => .next (s, q.2 ++ [kv'])

/-- The pairs go into the container one after the other, up to one that has no conversion. -/
def emplaceAll (asserts : Bool) (codec src : Codec) :
    List (Bytes × Bytes) → List (Bytes × Bytes) → List (Bytes × Bytes) × Option Stop
  | [], done => (done, none)
  | kv :: kvs, done =>
    match emplace asserts codec src kv with
    | .error e => (done, some e)
    | .ok kv' => emplaceAll asserts codec src kvs (done ++ [kv'])

/-- Reading the query ends, with the pairs between its delimiters in the container. -/
def ReadsPairs (asserts : Bool) (codec src : Codec) (query : Bytes) : Prop :=
  Ends (readTurn asserts codec src) (query, [])
    (emplaceAll asserts codec src (queryPairs query) [])

/-! Cutting a pair off. -/

def NoDelim (s : Bytes) : Prop := ∀ x ∈ s, x ∉ lit "=&"

theorem noDelim_iff : NoDelim s ↔ ('=' : Byte) ∉ s ∧ ('&' : Byte) ∉ s := by
  have h : ∀ x : Byte, x ∉ lit "=&" ↔ x ≠ '=' ∧ x ≠ '&' := fun x => by simp [lit]
  simp only [NoDelim, h]
  constructor
  · intro hs
    exact ⟨fun he => (hs _ he).1 rfl, fun he => (hs _ he).2 rfl⟩
  · rintro ⟨he, ha⟩ x hx
    exact ⟨fun e => he (e ▸ hx), fun e => ha (e ▸ hx)⟩

/-- A query starts with a piece that is all key, with a key and its `'='`, or is one key. -/
theorem query_cases (s : Bytes) : NoDelim s ∨ (∃ p r, s = p ++ ('&' : Byte) :: r ∧ NoDelim p) ∨
    ∃ k w, s = k ++ ('=' : Byte) :: w ∧ NoDelim k := by
  have hcut := Cut.findFirstOf_append (p := fun c : Byte => c ∈ lit "=&") (s := s)
  have hkey : NoDelim (Cut.findFirstOf (fun c : Byte => c ∈ lit "=&") s).1 := fun x hx =>
    of_decide_eq_false (Cut.not_stop_of_mem (p := fun c : Byte => c ∈ lit "=&") hx)
  cases hb : (Cut.findFirstOf (fun c : Byte => c ∈ lit "=&") s).2 with
  | nil =>
    rw [hb, List.append_nil] at hcut
    exact .inl (hcut ▸ hkey)
  | cons c b =>
    have hc : c ∈ lit "=&" := of_decide_eq_true
      (Cut.stop_of_head (p := fun c : Byte => c ∈ lit "=&") (by rw [hb]; rfl))
    rw [hb] at hcut
    have : c = '=' ∨ c = '&' := by simpa [lit] using hc
    obtain rfl | rfl := this
    · exact .inr (.inr ⟨_, b, hcut.symm, hkey⟩)
    · exact .inr (.inl ⟨_, b, hcut.symm, hkey⟩)

theorem findIdx_noDelim (hs : NoDelim s) : s.findIdx? (fun x => x ∈ lit "=&") = none :=
  List.findIdx?_eq_none_iff.2 fun x hx => decide_eq_false (hs x hx)

theorem findIdx_delim (hp : NoDelim p) (hc : c ∈ lit "=&") :
    (p ++ c :: r).findIdx? (fun x => x ∈ lit "=&") = some p.length := by
  simp [List.findIdx?_append, findIdx_noDelim hp, List.findIdx?_cons, hc]

theorem cutPair_noDelim (hs : NoDelim s) : cutPair s = some ((s, []), none) := by
  rw [cutPair, findIdx_noDelim hs]

theorem cutPair_amp (hp : NoDelim p) :
    cutPair (p ++ ('&' : Byte) :: r) = some ((p, []), some p.length) := by
  have hne : ¬('&' : Byte) = '=' := by decide
  rw [cutPair, findIdx_delim hp (by decide)]
  simp [hne]

theorem cutPair_eq (hk : NoDelim k) (hj : findFrom (UInt8.ofNat (k.length + 1)) 38
    (k ++ ('=' : Byte) :: w) = o) :
    cutPair (k ++ ('=' : Byte) :: w) = some ((k, o.elim w fun j => w.take j), o) := by
  have hpos : ('&' : Byte).toNat = 38 := rfl
  subst hj
  rw [cutPair, findIdx_delim hk (by decide)]
  simp [hpos, substr]

theorem findFrom_eq_some : findFrom c pos s = some j ↔
    pos ≤ j ∧ s[j]? = some c ∧ ∀ i, pos ≤ i → i < j → s[i]? ≠ some c := by
  unfold findFrom
  rw [Option.map_eq_some_iff]
  constructor
  · rintro ⟨i, hi, rfl⟩
    obtain ⟨hlt, hc, hbefore⟩ := List.findIdx?_eq_some_iff_getElem.1 hi
    rw [List.length_drop] at hlt
    refine ⟨Nat.le_add_right _ _, ?_, fun n hn hni => ?_⟩
    · simpa [List.getElem?_eq_getElem (show pos + i < s.length by omega)] using hc
    · have := hbefore (n - pos) (by omega)
      rw [List.getElem?_eq_getElem (by omega)]
      simpa [Nat.add_sub_cancel' hn] using this
  · rintro ⟨hpos, hc, hbefore⟩
    obtain ⟨hlt, hc⟩ := List.getElem?_eq_some_iff.1 hc
    refine ⟨j - pos, List.findIdx?_eq_some_iff_getElem.2 ⟨?_, ?_, ?_⟩, by omega⟩
    · rw [List.length_drop]
      omega
    · simpa [Nat.add_sub_cancel' hpos] using hc
    · intro n hn
      have := hbefore (pos + n) (by omega) (by omega)
      rw [List.getElem?_eq_getElem (by omega)] at this
      simpa using this

theorem findFrom_append (hj : j < s.length) :
    findFrom c pos (s ++ t) = some j ↔ findFrom c pos s = some j := by
  have hleft : ∀ i ≤ j, (s ++ t)[i]? = s[i]? := fun i hi =>
    List.getElem?_append_left (by omega)
  rw [findFrom_eq_some, findFrom_eq_some, hleft j le_rfl]
  refine and_congr_right fun _ => and_congr_right fun _ => ?_
  refine forall_congr' fun i => imp_congr_right fun _ => imp_congr_right fun hi => ?_
  rw [hleft i hi.le]

theorem lt_of_findFrom (h : findFrom c pos s = some j) : j < s.length :=
  (List.getElem?_eq_some_iff.1 (findFrom_eq_some.1 h).2.1).1

/-! Turns of the loop. -/

theorem ends_of_cut (hne : s ≠ []) (hcut : cutPair s = some (kv, some i)) (hi : i < s.length)
    (h : ∀ done, Ends (readTurn asserts codec src) (s.drop (i + 1), done)
      (emplaceAll asserts codec src kvs done)) (done : List (Bytes × Bytes)) :
    Ends (readTurn asserts codec src) (s, done)
      (emplaceAll asserts codec src (kv :: kvs) done) := by
  have hprefix : removePrefix (some i) s = some (s.drop (i + 1)) := if_pos hi
  cases he : emplace asserts codec src kv with
  | error e =>
    apply Ends.done
    simp [readTurn, hne, hcut, he, emplaceAll]
  | ok kv' =>
    have hturn : readTurn asserts codec src (s, done) =
        .next (s.drop (i + 1), done ++ [kv']) := by
      simp [readTurn, hne, hcut, he, hprefix]
    rw [emplaceAll, he]
    exact .next hturn (h _)

theorem emplace_asIs : emplace asserts .asIs .asIs kv = .ok kv := rfl

theorem emplaceAll_asIs : emplaceAll asserts .asIs .asIs kvs done = (done ++ kvs, none) := by
  induction kvs generalizing done with
  | nil => simp [emplaceAll]
  | cons kv kvs ih => simp [emplaceAll, emplace_asIs, ih]

theorem readTurn_asIs (hne : s ≠ []) (hcut : cutPair s = some (kv, o))
    (hr : removePrefix o s = some r) :
    readTurn asserts .asIs .asIs (s, done) = .next (r, done ++ [kv]) := by
  simp [readTurn, hne, hcut, emplace_asIs, hr]

/-- Without a delimiter to go behind, the same text is read for ever. -/
theorem not_ends_of_npos (hne : s ≠ []) (hcut : cutPair s = some (kv, none))
    {res : List (Bytes × Bytes) × Option Stop} :
    ¬Ends (readTurn asserts .asIs .asIs) (s, done) res := by
  intro h
  have hturn : ∀ q, q.1 = s → readTurn asserts .asIs .asIs q = .next (s, q.2 ++ [kv]) := by
    rintro ⟨_, done⟩ rfl
    exact readTurn_asIs hne hcut rfl
  refine h.invariant (fun q => q.1 = s) (fun _ => False) rfl ?_ ?_
  · intro q q' hq hnext
    rw [hturn q hq] at hnext
    exact congrArg Prod.fst (Turn.next.inj hnext).symm
  · intro q r hq hdone
    rw [hturn q hq] at hdone
    cases hdone

/-- The loop puts its pairs behind what the container held. -/
theorem prefix_of_ends {q : Bytes × List (Bytes × Bytes)}
    {res : List (Bytes × Bytes) × Option Stop} (h : Ends (readTurn asserts codec src) q res) :
    q.2 <+: res.1 := by
  have hturn : ∀ q : Bytes × List (Bytes × Bytes),
      match readTurn asserts codec src q with
      | .next q' => q.2 <+: q'.2
      | .done res => q.2 <+: res.1 := by
    intro q
    unfold readTurn
    split_ifs
    · exact List.prefix_rfl
    cases cutPair q.1 with
    | none => exact List.prefix_rfl
    | some cut =>
      dsimp only
      cases emplace asserts codec src cut.1 with
      | error e => exact List.prefix_rfl
      | ok kv' =>
        cases removePrefix cut.2 q.1 with
        | none => exact List.prefix_append _ _
        | some s => exact List.prefix_append _ _
  induction h with
  | @done q res hd =>
    have := hturn q
    rwa [hd] at this
  | @next q q' res hn _ ih =>
    have := hturn q
    rw [hn] at this
    exact this.trans ih

/-! What a run without conversion collects. -/

/-- The loop on the text ends, with these pairs behind what the container held. -/
def Collects (s : Bytes) (kvs : List (Bytes × Bytes)) : Prop :=
  ∃ done, Ends (readTurn true .asIs .asIs) (s, done) (done ++ kvs, none)

theorem collects_nil (h : Collects [] kvs) : kvs = [] := by
  obtain ⟨done, h⟩ := h
  have hdone : readTurn true .asIs .asIs ([], done) = .done (done, none) := rfl
  have := (Loop.ends_iff_of_done hdone).1 h
  simpa using this

/-- A turn that gets on collects the pair at the front. -/
theorem collects_cut (hne : s ≠ []) (hcut : cutPair s = some (kv, some i)) (hi : i < s.length)
    (h : Collects s kvs) : ∃ kvs', kvs = kv :: kvs' ∧ Collects (s.drop (i + 1)) kvs' := by
  obtain ⟨done, h⟩ := h
  rw [Loop.ends_iff_of_next (readTurn_asIs hne hcut (if_pos hi))] at h
  obtain ⟨kvs', hkvs⟩ := prefix_of_ends h
  have hkvs : done ++ [kv] ++ kvs' = done ++ kvs := hkvs
  refine ⟨kvs', ?_, done ++ [kv], hkvs ▸ h⟩
  rw [List.append_assoc] at hkvs
  exact (List.append_cancel_left hkvs).symm

theorem not_collects_noDelim (hne : s ≠ []) (hs : NoDelim s) : ¬Collects s kvs := by
  rintro ⟨done, h⟩
  exact not_ends_of_npos hne (cutPair_noDelim hs) h

theorem collects_amp (hp : NoDelim p) (h : Collects (p ++ ('&' : Byte) :: r) kvs) :
    ∃ kvs', kvs = (p, []) :: kvs' ∧ Collects r kvs' := by
  have := collects_cut (by simp) (cutPair_amp hp) (by simp) h
  simpa using this

/-- Behind a value the loop ends only if the byte that it looks for is there. -/
theorem collects_eq (hk : NoDelim k) (h : Collects (k ++ ('=' : Byte) :: w) kvs) :
    ∃ j kvs', findFrom (UInt8.ofNat (k.length + 1)) 38 (k ++ ('=' : Byte) :: w) = some j ∧
      kvs = (k, w.take j) :: kvs' ∧ Collects ((k ++ ('=' : Byte) :: w).drop (j + 1)) kvs' := by
  cases hj : findFrom (UInt8.ofNat (k.length + 1)) 38 (k ++ ('=' : Byte) :: w) with
  | none =>
    obtain ⟨done, h⟩ := h
    exact absurd h (not_ends_of_npos (by simp) (cutPair_eq hk hj))
  | some j =>
    obtain ⟨kvs', hkvs, h'⟩ := collects_cut (by simp) (cutPair_eq hk hj) (lt_of_findFrom hj) h
    exact ⟨j, kvs', rfl, hkvs, h'⟩

/-! Sizes: a pair counts with one delimiter. -/

def pairsSize (kvs : List (Bytes × Bytes)) : ℕ :=
  (kvs.map fun kv => kv.1.length + kv.2.length + 1).sum

@[simp] theorem pairsSize_nil : pairsSize [] = 0 := rfl

@[simp] theorem pairsSize_cons :
    pairsSize (kv :: kvs) = kv.1.length + kv.2.length + 1 + pairsSize kvs := List.sum_cons

/-- No turn removes more than it collects. -/
theorem length_le_of_collects (h : Collects s kvs) : s.length ≤ pairsSize kvs := by
  induction kvs generalizing s with
  | nil =>
    obtain rfl | hne := eq_or_ne s []
    · exact le_rfl
    obtain hs | ⟨p, r, rfl, hp⟩ | ⟨k, w, rfl, hk⟩ := query_cases s
    · exact absurd h (not_collects_noDelim hne hs)
    · obtain ⟨_, hkvs, -⟩ := collects_amp hp h
      cases hkvs
    · obtain ⟨_, _, -, hkvs, -⟩ := collects_eq hk h
      cases hkvs
  | cons kv kvs ih =>
    obtain rfl | hne := eq_or_ne s []
    · simp
    obtain hs | ⟨p, r, rfl, hp⟩ | ⟨k, w, rfl, hk⟩ := query_cases s
    · exact absurd h (not_collects_noDelim hne hs)
    · obtain ⟨kvs', hkvs, h'⟩ := collects_amp hp h
      cases hkvs
      have := ih h'
      simp only [List.length_append, List.length_cons, pairsSize_cons, List.length_nil]
      omega
    · obtain ⟨j, kvs', hj, hkvs, h'⟩ := collects_eq hk h
      cases hkvs
      have hlt := lt_of_findFrom hj
      have := ih h'
      simp only [List.length_append, List.length_cons, pairsSize_cons, List.length_take,
        List.length_drop] at hlt this ⊢
      omega

theorem amp_cases (s : Bytes) : ('&' : Byte) ∉ s ∨
    ∃ p r, s = p ++ ('&' : Byte) :: r ∧ ('&' : Byte) ∉ p := by
  cases h : Cut.find ('&' : Byte) s with
  | none => exact .inl (Cut.find_eq_none.1 h)
  | some q => exact .inr ⟨q.1, q.2, Cut.find_eq_some.1 h⟩

theorem queryPairs_of_not_mem (h : ('&' : Byte) ∉ s) : queryPairs s = [splitPair s] := by
  rw [queryPairs, List.splitOn_eq_singleton h]
  rfl

theorem queryPairs_append (h : ('&' : Byte) ∉ p) :
    queryPairs (p ++ ('&' : Byte) :: r) = splitPair p :: queryPairs r := by
  rw [queryPairs, List.splitOn_append_cons_self, List.splitOn_eq_singleton h]
  rfl

theorem splitPair_of_not_mem (h : ('=' : Byte) ∉ s) : splitPair s = (s, []) := by
  rw [splitPair, Cut.find_eq_none.2 h]
  rfl

/-- Each `'='` that splits a piece takes one off the size of the pairs. -/
theorem pairsSize_queryPairs : pairsSize (queryPairs s) ≤ s.length + 1 ∧
    (('=' : Byte) ∈ s → pairsSize (queryPairs s) ≤ s.length) := by
  have hsplit : ∀ p : Bytes, (splitPair p).1.length + (splitPair p).2.length ≤ p.length ∧
      (('=' : Byte) ∈ p → (splitPair p).1.length + (splitPair p).2.length + 1 ≤ p.length) := by
    intro p
    cases h : Cut.find ('=' : Byte) p with
    | none =>
      have hp := Cut.find_eq_none.1 h
      rw [splitPair_of_not_mem hp]
      exact ⟨le_rfl, fun he => absurd he hp⟩
    | some q =>
      obtain ⟨hp, hq⟩ := Cut.find_eq_some.1 h
      rw [hp, splitPair_append hq]
      simp only [List.length_append, List.length_cons]
      exact ⟨by omega, fun _ => by omega⟩
  induction hn : s.length using Nat.strong_induction_on generalizing s with
  | h n ih =>
    obtain hs | ⟨p, r, rfl, hp⟩ := amp_cases s
    · rw [queryPairs_of_not_mem hs]
      simp only [pairsSize_cons, pairsSize_nil]
      have := hsplit s
      exact ⟨by omega, fun he => by have := this.2 he; omega⟩
    · rw [queryPairs_append hp]
      simp only [List.length_append, List.length_cons] at hn
      obtain ⟨hr, hre⟩ := ih r.length (by omega) rfl
      obtain ⟨hp₁, hp₂⟩ := hsplit p
      simp only [pairsSize_cons]
      refine ⟨by omega, fun he => ?_⟩
      have hne : ¬('=' : Byte) = '&' := by decide
      obtain he | he := List.mem_append.1 he
      · have := hp₂ he
        omega
      · have := hre ((List.mem_cons.1 he).resolve_left hne)
        omega

/-! The queries that are read as they should be. -/

/-- Keys without values, each with an `'&'` behind it, then a key and a value. The last byte of
these two is the first from position 38 on that is the number of bytes before the value; behind
it there is nothing, or, for an empty key, only `'&'`s. -/
def ValueLast (query : Bytes) : Prop :=
  ∃ pre k v m, query = pre ++ (k ++ ('=' : Byte) :: v) ++ List.replicate m ('&' : Byte) ∧
    (pre = [] ∨ pre.getLast? = some ('&' : Byte)) ∧ ('=' : Byte) ∉ pre ∧
    NoDelim k ∧ ('&' : Byte) ∉ v ∧ (m = 0 ∨ k = []) ∧
    findFrom (UInt8.ofNat (k.length + 1)) 38 (k ++ ('=' : Byte) :: v) =
      some (k.length + v.length)

theorem ValueLast.cons (hp : NoDelim p) (h : ValueLast r) :
    ValueLast (p ++ ('&' : Byte) :: r) := by
  obtain ⟨pre, k, v, m, rfl, hpre, heq, h⟩ := h
  refine ⟨p ++ ('&' : Byte) :: pre, k, v, m, by simp, .inr ?_, ?_, h⟩
  · obtain rfl | hpre := hpre
    · simp
    · rw [List.getLast?_append, List.getLast?_cons, hpre]
      rfl
  · have hne : ¬('=' : Byte) = '&' := by decide
    simp [heq, (noDelim_iff.1 hp).1, hne]

/-- Pairs one step ahead of the pieces are the same pairs only if all of them are empty. -/
theorem eq_replicate_of_collects (hr : ('=' : Byte) ∉ r)
    (h : Collects (('&' : Byte) :: r) (queryPairs r)) : ∃ m, r = List.replicate m ('&' : Byte) := by
  induction hn : r.length using Nat.strong_induction_on generalizing r with
  | h n ih =>
    obtain ⟨kvs', hkvs, h'⟩ := collects_amp (p := []) (by simp [NoDelim]) h
    obtain hamp | ⟨p, r', rfl, hp⟩ := amp_cases r
    · rw [queryPairs_of_not_mem hamp, splitPair_of_not_mem hr] at hkvs
      refine ⟨0, ?_⟩
      simpa using congrArg (Option.map Prod.fst) (congrArg List.head? hkvs)
    · have hp' : ('=' : Byte) ∉ p := fun he => hr (List.mem_append_left _ he)
      have hr' : ('=' : Byte) ∉ r' := fun he => hr (by simp [he])
      rw [queryPairs_append hp, splitPair_of_not_mem hp'] at hkvs
      obtain ⟨hpair, rfl⟩ := List.cons.inj hkvs
      have hnil : p = [] := congrArg Prod.fst hpair
      subst hnil
      obtain ⟨m, hm⟩ := ih r'.length (by rw [← hn]; simp) hr' h' rfl
      exact ⟨m + 1, by rw [hm]; rfl⟩

theorem valueLast_of_collects (h : Collects s (queryPairs s)) : ValueLast s := by
  induction hn : s.length using Nat.strong_induction_on generalizing s with
  | h n ih =>
    obtain rfl | hne := eq_or_ne s []
    · cases collects_nil h
    obtain hs | ⟨p, r, rfl, hp⟩ | ⟨k, w, rfl, hk⟩ := query_cases s
    · exact absurd h (not_collects_noDelim hne hs)
    · obtain ⟨he, ha⟩ := noDelim_iff.1 hp
      rw [queryPairs_append ha, splitPair_of_not_mem he] at h
      obtain ⟨kvs', hkvs, h'⟩ := collects_amp hp h
      cases hkvs
      have hlen : r.length < n := by
        rw [← hn, List.length_append, List.length_cons]
        omega
      exact (ih r.length hlen h' rfl).cons hp
    · obtain ⟨he, ha⟩ := noDelim_iff.1 hk
      have hne' : ¬('&' : Byte) = '=' := by decide
      obtain ⟨j, kvs', hj, hkvs, h'⟩ := collects_eq hk h
      have hlt := lt_of_findFrom hj
      have hsize := length_le_of_collects h'
      simp only [List.length_append, List.length_cons, List.length_drop] at hlt hsize
      obtain hw | ⟨v, r, rfl, hv⟩ := amp_cases w
      · -- the last piece: nothing may be left behind it
        rw [queryPairs_of_not_mem (by simp [ha, hw, hne']), splitPair_append he] at hkvs
        obtain ⟨-, rfl⟩ := List.cons.inj hkvs
        simp only [pairsSize_nil] at hsize
        refine ⟨[], k, w, 0, by simp, .inl rfl, by simp, hk, hw, .inl rfl, ?_⟩
        rw [hj, show j = k.length + w.length by omega]
      · have hsplit : k ++ ('=' : Byte) :: (v ++ ('&' : Byte) :: r) =
            (k ++ ('=' : Byte) :: v) ++ ('&' : Byte) :: r := by simp
        rw [hsplit, queryPairs_append (by simp [ha, hv, hne']), splitPair_append he] at hkvs
        obtain ⟨hpair, rfl⟩ := List.cons.inj hkvs
        have hjv : j = v.length := by
          have := congrArg (List.length ∘ Prod.snd) hpair
          simp only [Function.comp_apply, List.length_take, List.length_append,
            List.length_cons] at this
          omega
        subst hjv
        -- what is left is as long as the pairs of the rest only for an empty key
        obtain ⟨hle, hlt'⟩ := @pairsSize_queryPairs r
        simp only [List.length_append, List.length_cons] at hsize
        have hk' : k = [] := List.length_eq_zero_iff.1 (by omega)
        subst hk'
        have hr : ('=' : Byte) ∉ r := fun hmem => by
          have := hlt' hmem
          simp only [List.length_nil] at hsize
          omega
        have hdrop : (([] : Bytes) ++ ('=' : Byte) :: (v ++ ('&' : Byte) :: r)).drop
          (v.length + 1) = ('&' : Byte) :: r := by simp
        rw [hdrop] at h'
        obtain ⟨m, rfl⟩ := eq_replicate_of_collects hr h'
        refine ⟨[], [], v, m + 1, ?_, .inl rfl, by simp, hk, hv, .inr rfl, ?_⟩
        · simp [List.replicate_succ]
        · rw [hsplit, findFrom_append (by simp)] at hj
          simpa using hj

theorem ends_replicate (done : List (Bytes × Bytes)) :
    Ends (readTurn asserts codec src) (List.replicate m ('&' : Byte), done)
      (emplaceAll asserts codec src (List.replicate m ([], [])) done) := by
  induction m generalizing done with
  | zero => exact .done rfl
  | succ m ih =>
    rw [List.replicate_succ, List.replicate_succ]
    exact ends_of_cut (by simp) (cutPair_amp (p := []) (by simp [NoDelim])) (by simp) ih done

theorem queryPairs_replicate :
    queryPairs (List.replicate m ('&' : Byte)) = List.replicate (m + 1) ([], []) := by
  induction m with
  | zero => rfl
  | succ m ih =>
    rw [List.replicate_succ, List.replicate_succ, ← ih]
    exact queryPairs_append (p := []) (by simp)

/-- The pair behind the keys: all that is left is taken, or all but the `'&'`s. -/
theorem ends_value (hk : NoDelim k) (hv : ('&' : Byte) ∉ v) (hm : m = 0 ∨ k = [])
    (hj : findFrom (UInt8.ofNat (k.length + 1)) 38 (k ++ ('=' : Byte) :: v) =
      some (k.length + v.length)) (done : List (Bytes × Bytes)) :
    Ends (readTurn asserts codec src)
      (k ++ ('=' : Byte) :: v ++ List.replicate m ('&' : Byte), done)
      (emplaceAll asserts codec src
        (queryPairs (k ++ ('=' : Byte) :: v ++ List.replicate m ('&' : Byte))) done) := by
  obtain ⟨he, ha⟩ := noDelim_iff.1 hk
  have hne : ¬('&' : Byte) = '=' := by decide
  have hpiece : ('&' : Byte) ∉ k ++ ('=' : Byte) :: v := by simp [ha, hv, hne]
  cases m with
  | zero =>
    have htake : v.take (k.length + v.length) = v := List.take_of_length_le (by omega)
    have hcut := cutPair_eq hk hj
    rw [Option.elim, htake] at hcut
    rw [List.replicate_zero, List.append_nil, queryPairs_of_not_mem hpiece, splitPair_append he]
    refine ends_of_cut (by simp) hcut (by simp) (fun done => ?_) done
    rw [List.drop_of_length_le (by simp; omega)]
    exact .done rfl
  | succ m =>
    obtain rfl : k = [] := hm.resolve_left (Nat.succ_ne_zero m)
    rw [List.nil_append, List.length_nil, Nat.zero_add, Nat.zero_add] at hj
    have hj' : findFrom (UInt8.ofNat (([] : Bytes).length + 1)) 38
        ([] ++ ('=' : Byte) :: (v ++ List.replicate (m + 1) ('&' : Byte))) = some v.length :=
      (findFrom_append (s := ('=' : Byte) :: v) (by simp)).2 hj
    have hcut := cutPair_eq hk hj'
    rw [Option.elim, List.take_left] at hcut
    rw [List.replicate_succ, queryPairs_append hpiece, splitPair_append he,
      queryPairs_replicate, ← List.replicate_succ]
    have hlt : v.length <
        (([] : Bytes) ++ ('=' : Byte) :: (v ++ List.replicate (m + 1) ('&' : Byte))).length := by
      simp only [List.nil_append, List.length_cons, List.length_append]
      omega
    refine ends_of_cut (by simp) hcut hlt (fun done => ?_) done
    simpa using ends_replicate done

theorem ends_of_valueLast (h : ValueLast s) (done : List (Bytes × Bytes)) :
    Ends (readTurn asserts codec src) (s, done)
      (emplaceAll asserts codec src (queryPairs s) done) := by
  obtain ⟨pre, k, v, m, rfl, hpre, heq, hk, hv, hm, hj⟩ := h
  induction hn : pre.length using Nat.strong_induction_on generalizing pre done with
  | h n ih =>
    obtain rfl | hne := eq_or_ne pre []
    · exact ends_value hk hv hm hj done
    have hlast := hpre.resolve_left hne
    obtain hamp | ⟨p, r, rfl, hp⟩ := amp_cases pre
    · exact absurd (List.mem_of_getLast? hlast) hamp
    have hp' : NoDelim p := noDelim_iff.2 ⟨fun he => heq (List.mem_append_left _ he), hp⟩
    have hr : r = [] ∨ r.getLast? = some ('&' : Byte) := by
      cases r with
      | nil => exact .inl rfl
      | cons x r => exact .inr (by simpa using hlast)
    have hr' : ('=' : Byte) ∉ r := fun he => heq (by simp [he])
    have hlen : r.length < n := by
      rw [← hn, List.length_append, List.length_cons]
      omega
    rw [List.append_assoc, List.append_assoc, List.cons_append, queryPairs_append hp,
      splitPair_of_not_mem (noDelim_iff.1 hp').1]
    refine ends_of_cut (by simp) (cutPair_amp hp') (by simp) (fun done => ?_) done
    have := ih r.length hlen done r hr hr' rfl
    simpa using this

/-- Reading ends with the pairs of the query, whatever the codecs, exactly for such a query. -/
theorem reads_pairs_iff (query : Bytes) :
    (∀ asserts codec src, ReadsPairs asserts codec src query) ↔ ValueLast query := by
  constructor
  · intro h
    have hrun := h true .asIs .asIs
    rw [ReadsPairs, emplaceAll_asIs] at hrun
    exact valueLast_of_collects ⟨[], hrun⟩
  · intro h asserts codec src
    exact ends_of_valueLast h []

/-- Whatever comes behind the first value is taken for a part of it, and never left. -/
theorem not_reads_pairs_two : (∀ res, ¬Ends (readTurn true .asIs .asIs) (lit "a=1&b=2", []) res) ∧
    ¬ReadsPairs true .asIs .asIs (lit "a=1&b=2") := by
  have hcut : cutPair (lit "a=1&b=2") = some ((lit "a", lit "1&b=2"), none) := by decide +kernel
  have h : ∀ res, ¬Ends (readTurn true .asIs .asIs) (lit "a=1&b=2", []) res :=
    fun res => not_ends_of_npos (by decide) hcut
  exact ⟨h, h _⟩

end Jkl.Uri
