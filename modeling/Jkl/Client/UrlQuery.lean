import Jkl.Lib.Loop
import Jkl.Uri.QueryRead
import Mathlib.Data.List.Sort

/-! `url_query_t`: a query and its pairs, which are views into it. -/
namespace Jkl.Client

open Loop (Turn)
open Uri (Byte splitPair queryPairs)

/-- A `string_view` into `_q`. -/
structure QueryView where
  pos : ℕ
  len : ℕ
deriving DecidableEq

def QueryView.text (q : Uri.Bytes) (v : QueryView) : Uri.Bytes := (q.drop v.pos).take v.len

/-- `_q` and `_kvs`. -/
structure UrlQuery where
  q : Uri.Bytes
  kvs : List (QueryView × QueryView)

def pairText (q : Uri.Bytes) (kv : QueryView × QueryView) : Uri.Bytes × Uri.Bytes :=
  (kv.1.text q, kv.2.text q)

/-- The stored pairs. -/
def UrlQuery.pairs (s : UrlQuery) : List (Uri.Bytes × Uri.Bytes) := s.kvs.map (pairText s.q)

/-! `set`. -/

/-- `emplace` of a `flat_multimap`: behind the keys that are not greater. -/
def emplace (q : Uri.Bytes) (kv : QueryView × QueryView) (kvs : List (QueryView × QueryView)) :
    List (QueryView × QueryView) :=
  kvs.orderedInsert (fun a b => a.1.text q < b.1.text q) kv

/-- The inner loop, from `pos` on with the characters behind it: the delimiter, if there is one,
and the end of the pair. -/
def scan : Uri.Bytes → Option ℕ → ℕ → Option ℕ × ℕ
  | [], delimiter, pos => (delimiter, pos)
  | c :: s, delimiter, pos =>
    let delimiter := if delimiter = none ∧ c = '=' then some pos else delimiter
    if c = '&' then (delimiter, pos) else scan s delimiter (pos + 1)

/-- The value between the delimiter and the end of the pair; a null view when it is empty. -/
def valueView (delimiter pos : ℕ) : QueryView :=
  if delimiter + 1 < pos then ⟨delimiter + 1, pos - delimiter - 1⟩ else ⟨0, 0⟩

/-- A turn of the outer loop. -/
def setTurn (q : Uri.Bytes) (s : ℕ × List (QueryView × QueryView)) :
    Turn (ℕ × List (QueryView × QueryView)) (List (QueryView × QueryView)) :=
  if s.1 < q.length then
    let (delimiter, pos) := scan (q.drop s.1) none s.1
    let delimiter := delimiter.getD pos
    let k : QueryView := ⟨s.1, delimiter - s.1⟩
    .next (if pos < q.length then pos + 1 else pos, emplace q (k, valueView delimiter pos) s.2)
  else .done s.2

variable {q p r s : Uri.Bytes} {b pos : ℕ} {d : Option ℕ} {kvs : List (QueryView × QueryView)}

theorem scan_append (hp : ('&' : Byte) ∉ p) (hr : ∀ c, r.head? = some c → c = '&') :
    scan (p ++ r) d b =
      (d.or ((Cut.find ('=' : Byte) p).map fun x => b + x.1.length), b + p.length) := by
  induction p generalizing b d with
  | nil =>
    cases r with
    | nil => simp [scan, Cut.find]
    | cons c r =>
      obtain rfl := hr c rfl
      simp [scan, Cut.find]
  | cons c p ih =>
    have hc : c ≠ '&' := fun e => hp (e ▸ List.mem_cons_self)
    rw [List.cons_append, scan, if_neg hc, ih fun h => hp (List.mem_cons_of_mem c h)]
    have hlen : b + 1 + p.length = b + (c :: p).length := by
      rw [List.length_cons]
      omega
    rw [hlen, Cut.find]
    cases d with
    | some j => simp
    | none =>
      by_cases he : c = '='
      · simp [he]
      · simp [he, Function.comp_def, Nat.add_assoc, Nat.add_comm 1]

/-- The characters of the view are there. -/
def QueryView.Inside (q : Uri.Bytes) (v : QueryView) : Prop := v.pos + v.len ≤ q.length

theorem QueryView.text_eq {v : QueryView} {a t : Uri.Bytes} (hq : q = t ++ (a ++ r))
    (hpos : v.pos = t.length) (hlen : v.len = a.length) : v.text q = a ∧ v.Inside q := by
  subst hq
  refine ⟨?_, ?_⟩
  · rw [QueryView.text, hpos, hlen, List.drop_left, List.take_left]
  · rw [QueryView.Inside, hpos, hlen]
    simp

theorem valueView_nil (h : pos ≤ b + 1) :
    (valueView b pos).text q = [] ∧ (valueView b pos).Inside q := by
  rw [valueView, if_neg (by omega)]
  exact ⟨by simp [QueryView.text], Nat.zero_le _⟩

theorem valueView_text {v t : Uri.Bytes} (hq : q = t ++ (v ++ r)) (hb : b + 1 = t.length)
    (hpos : pos = b + 1 + v.length) :
    (valueView b pos).text q = v ∧ (valueView b pos).Inside q := by
  by_cases hv : v = []
  · subst hv
    exact valueView_nil hpos.le
  · have hlen := List.length_pos_iff.2 hv
    rw [valueView, if_pos (by omega)]
    exact QueryView.text_eq hq hb (by dsimp only; omega)

/-- A turn stores the next piece, cut at its first `'='`, and goes on behind the `'&'`. -/
theorem setTurn_pair {t : Uri.Bytes} (hq : q = t ++ (p ++ r)) (hp : ('&' : Byte) ∉ p)
    (hr : ∀ c, r.head? = some c → c = '&') (hne : p ++ r ≠ []) :
    ∃ kv : QueryView × QueryView,
      setTurn q (t.length, kvs) = .next (q.length - r.tail.length, emplace q kv kvs) ∧
        pairText q kv = splitPair p ∧ kv.1.Inside q ∧ kv.2.Inside q := by
  have hlt : t.length < q.length := by
    have := List.length_pos_iff.2 hne
    rw [hq, List.length_append]
    omega
  have hdrop : q.drop t.length = p ++ r := by rw [hq, List.drop_left]
  have hnext : (if t.length + p.length < q.length then t.length + p.length + 1
      else t.length + p.length) = q.length - r.tail.length := by
    have hlen := congrArg List.length hq
    simp only [List.length_append] at hlen
    rw [List.length_tail]
    cases r with
    | nil =>
      rw [List.length_nil] at hlen ⊢
      rw [if_neg (by omega)]
      omega
    | cons c r =>
      rw [List.length_cons] at hlen ⊢
      rw [if_pos (by omega)]
      omega
  rw [setTurn, if_pos hlt, hdrop, scan_append hp hr]
  simp only [Option.none_or, hnext]
  refine ⟨_, rfl, ?_⟩
  cases hf : Cut.find ('=' : Byte) p with
  | none =>
    obtain ⟨hk, hkin⟩ := @QueryView.text_eq q r ⟨t.length, t.length + p.length - t.length⟩ p t hq
      rfl (Nat.add_sub_cancel_left _ _)
    obtain ⟨hv, hvin⟩ := @valueView_nil q (t.length + p.length) _ (Nat.le_succ _)
    have hsplit : splitPair p = (p, []) := by
      rw [splitPair, hf]
      rfl
    rw [hsplit]
    exact ⟨Prod.ext hk hv, hkin, hvin⟩
  | some x =>
    obtain ⟨k, v⟩ := x
    obtain ⟨rfl, -⟩ := Cut.find_eq_some.1 hf
    have hqk : q = t ++ (k ++ (('=' : Byte) :: v ++ r)) := by simp [hq]
    have hqv : q = (t ++ k ++ [('=' : Byte)]) ++ (v ++ r) := by simp [hq]
    obtain ⟨hk, hkin⟩ := @QueryView.text_eq q _ ⟨t.length, t.length + k.length - t.length⟩ k t hqk
      rfl (Nat.add_sub_cancel_left _ _)
    obtain ⟨hv, hvin⟩ := @valueView_text q r (t.length + k.length)
      (t.length + (k ++ ('=' : Byte) :: v).length) v _ hqv (by simp; omega) (by simp; omega)
    have hsplit : splitPair (k ++ ('=' : Byte) :: v) = (k, v) := by
      rw [splitPair, hf]
      rfl
    rw [hsplit]
    exact ⟨Prod.ext hk hv, hkin, hvin⟩

/-! Splitting a query. -/

/-- A query split at every `'&'`, and each piece at its first `'='`. Whether an empty piece at the
end is one, behind a last `'&'` or in an empty query, is left open. -/
def pairsOf (last : Bool) (q : Uri.Bytes) : List (Uri.Bytes × Uri.Bytes) :=
  if last = false ∧ (q = [] ∨ q.getLast? = some ('&' : Byte)) then (queryPairs q).dropLast
  else queryPairs q

theorem pairsOf_nil : pairsOf false [] = [] := by decide

theorem pairsOf_piece (hp : ('&' : Byte) ∉ p) (hne : p ≠ []) : pairsOf false p = [splitPair p] := by
  have hlast : p.getLast? ≠ some ('&' : Byte) := fun h => hp (List.mem_of_getLast? h)
  rw [pairsOf, if_neg (by simp [hne, hlast]), Uri.queryPairs_of_not_mem hp]

theorem queryPairs_ne_nil : queryPairs q ≠ [] := by
  simp [queryPairs]

theorem pairsOf_cons (hp : ('&' : Byte) ∉ p) :
    pairsOf false (p ++ ('&' : Byte) :: r) = splitPair p :: pairsOf false r := by
  have hlast : (p ++ ('&' : Byte) :: r).getLast? = some ('&' : Byte) ↔
      r = [] ∨ r.getLast? = some ('&' : Byte) := by
    cases r with
    | nil => simp
    | cons c r => simp
  simp only [pairsOf, hlast, Uri.queryPairs_append hp, List.append_eq_nil_iff, reduceCtorEq,
    and_false, false_or]
  split_ifs with h
  · exact List.dropLast_cons_of_ne_nil queryPairs_ne_nil
  · rfl

theorem piece_cases (s : Uri.Bytes) : s = [] ∨ ∃ p r, s = p ++ r ∧ ('&' : Byte) ∉ p ∧
    (∀ c, r.head? = some c → c = '&') ∧ p ++ r ≠ [] ∧
      pairsOf false s = splitPair p :: pairsOf false r.tail := by
  obtain h | ⟨p, r, rfl, hp⟩ := Uri.amp_cases s
  · by_cases hne : s = []
    · exact .inl hne
    · refine .inr ⟨s, [], by simp, h, by simp, by simpa using hne, ?_⟩
      rw [pairsOf_piece h hne, List.tail_nil, pairsOf_nil]
  · exact .inr ⟨p, '&' :: r, rfl, hp, by simp, by simp, pairsOf_cons hp⟩

/-! What is stored. -/

/-- The loop at `rest`: what is stored and what is still to be stored are the pairs of the query,
and the views lie inside it. -/
structure Storing (q : Uri.Bytes) (s : ℕ × List (QueryView × QueryView)) (rest : Uri.Bytes) :
    Prop where
  split : ∃ t, q = t ++ rest ∧ s.1 = t.length
  pairs : (s.2.map (pairText q) ++ pairsOf false rest).Perm (pairsOf false q)
  inside : ∀ kv ∈ s.2, kv.1.Inside q ∧ kv.2.Inside q

theorem perm_emplace {kv : QueryView × QueryView} : (emplace q kv kvs).Perm (kv :: kvs) :=
  List.perm_orderedInsert _ kv kvs

theorem exists_split_tail {t : Uri.Bytes} (hq : q = t ++ (p ++ r)) :
    ∃ t', q = t' ++ r.tail ∧ q.length - r.tail.length = t'.length := by
  cases r with
  | nil => exact ⟨t ++ p, by simp [hq], by simp [hq]⟩
  | cons c r => exact ⟨t ++ p ++ [c], by simp [hq], by simp [hq]; omega⟩

theorem Storing.turn {st : ℕ × List (QueryView × QueryView)} {rest : Uri.Bytes}
    (h : Storing q st rest) : (rest = [] ∧ setTurn q st = .done st.2) ∨
      ∃ st' rest', setTurn q st = .next st' ∧ rest'.length < rest.length ∧
        Storing q st' rest' := by
  obtain ⟨pos, kvs⟩ := st
  obtain ⟨⟨t, hq, hpos⟩, hpairs, hinside⟩ := h
  obtain rfl : pos = t.length := hpos
  obtain rfl | ⟨p, r, rfl, hp, hr, hne, hcons⟩ := piece_cases rest
  · refine .inl ⟨rfl, if_neg ?_⟩
    simp [hq]
  · obtain ⟨kv, hturn, htext, hin⟩ := @setTurn_pair _ _ _ kvs t hq hp hr hne
    have hlen := List.length_pos_iff.2 hne
    rw [List.length_append] at hlen
    refine .inr ⟨_, r.tail, hturn, ?_, exists_split_tail hq, ?_, ?_⟩
    · rw [List.length_append, List.length_tail]
      omega
    · rw [hcons] at hpairs
      refine (List.Perm.append_right _ (perm_emplace.map (pairText q))).trans ?_
      rw [List.map_cons, htext]
      exact (List.perm_middle.symm).trans hpairs
    · intro kv' hkv
      obtain rfl | hkv := List.mem_cons.1 (perm_emplace.mem_iff.1 hkv)
      · exact hin
      · exact hinside kv' hkv

theorem Storing.run {st : ℕ × List (QueryView × QueryView)} {rest : Uri.Bytes} {n : ℕ}
    (h : Storing q st rest) (hn : rest.length < n) :
    ∃ kvs, Loop.run (setTurn q) n st = some kvs ∧ (kvs.map (pairText q)).Perm (pairsOf false q) ∧
      ∀ kv ∈ kvs, kv.1.Inside q ∧ kv.2.Inside q := by
  induction n generalizing st rest with
  | zero => omega
  | succ n ih =>
    rw [Loop.run]
    obtain ⟨rfl, hturn⟩ | ⟨st', rest', hturn, hlt, h'⟩ := h.turn
    · rw [hturn]
      refine ⟨_, rfl, ?_, h.inside⟩
      simpa [pairsOf_nil] using h.pairs
    · rw [hturn]
      exact ih h' (by omega)

theorem storing_start : Storing q (0, []) q := ⟨⟨[], rfl, rfl⟩, by simp, by simp⟩

/-- `set`. -/
def UrlQuery.set (q : Uri.Bytes) : UrlQuery :=
  ⟨q, (Loop.run (setTurn q) (q.length + 1) (0, [])).get (by
    obtain ⟨kvs, h, -⟩ := @Storing.run q _ _ (q.length + 1) storing_start (Nat.lt_succ_self _)
    rw [h]
    rfl)⟩

@[simp] theorem set_q : (UrlQuery.set q).q = q := rfl

theorem set_spec (q : Uri.Bytes) : (UrlQuery.set q).pairs.Perm (pairsOf false q) ∧
    ∀ kv ∈ (UrlQuery.set q).kvs, kv.1.Inside q ∧ kv.2.Inside q := by
  obtain ⟨kvs, h, hspec⟩ := @Storing.run q _ _ (q.length + 1) storing_start (Nat.lt_succ_self _)
  have hkvs : (UrlQuery.set q).kvs = kvs := by simp [UrlQuery.set, h]
  rw [UrlQuery.pairs, hkvs]
  exact hspec

/-! `rebuild_query`. -/

/-- What is read through views into a string that has been cleared. Their characters are gone, so
that nothing is known of it but its length. -/
structure Stale where
  read : QueryView → Uri.Bytes
  length_read : ∀ v, (read v).length = v.len

def UrlQuery.rebuildQuery (stale : Stale) (s : UrlQuery) : UrlQuery :=
  { s with q := s.kvs.flatMap fun kv => stale.read kv.1 ++ ('=' : Byte) :: stale.read kv.2 }

/-- `query()` of an object. -/
def UrlQuery.query (stale : Stale) (s : UrlQuery) : UrlQuery :=
  if s.q = [] then s.rebuildQuery stale else s

/-- The characters are still there. -/
def kept (q : Uri.Bytes) : Stale where
  read v := v.text q ++ List.replicate (v.len - (v.text q).length) 0
  length_read v := by
    simp only [QueryView.text, List.length_append, List.length_replicate, List.length_take]
    omega

/-- There is nothing but `'&'`. -/
def amps : Stale where
  read v := List.replicate v.len '&'
  length_read _ := List.length_replicate

/-- `set` stores the pairs of the query, and what is rebuilt has the same. -/
def Rebuilds (last : Bool) (q : Uri.Bytes) : Prop :=
  (UrlQuery.set q).pairs.Perm (pairsOf last q) ∧
    ∀ stale, (pairsOf last ((UrlQuery.set q).rebuildQuery stale).q).Perm (UrlQuery.set q).pairs

variable {last : Bool} {kv : Uri.Bytes × Uri.Bytes} {n m : ℕ}

theorem QueryView.Inside.length_text {v : QueryView} (h : v.Inside q) :
    (v.text q).length = v.len := by
  unfold QueryView.Inside at h
  rw [QueryView.text, List.length_take, List.length_drop]
  omega

/-- A query that is set is never rebuilt by `query()`. -/
theorem query_set (stale : Stale) : ((UrlQuery.set q).query stale).q = q := by
  unfold UrlQuery.query
  rw [set_q]
  split_ifs with h
  · subst h
    have hnil : (UrlQuery.set []).kvs = [] := by
      have := (set_spec []).1
      rwa [pairsOf_nil, List.perm_nil, UrlQuery.pairs, List.map_eq_nil_iff] at this
    rw [UrlQuery.rebuildQuery, hnil]
    rfl
  · rfl

/-- Splitting at `'='` takes nothing in. -/
theorem mem_of_splitPair {c : Byte} (h : c ∈ (splitPair p).1 ∨ c ∈ (splitPair p).2) : c ∈ p := by
  unfold splitPair at h
  cases hf : Cut.find ('=' : Byte) p with
  | none => simpa [hf] using h
  | some x =>
    obtain ⟨k, v⟩ := x
    obtain ⟨rfl, -⟩ := Cut.find_eq_some.1 hf
    rw [hf, Option.getD_some] at h
    simp only [List.mem_append, List.mem_cons]
    tauto

/-- Neither delimiter is in a key, nor `'&'` in a value. -/
structure Separate (kv : Uri.Bytes × Uri.Bytes) : Prop where
  keyEq : ('=' : Byte) ∉ kv.1
  keyAmp : ('&' : Byte) ∉ kv.1
  valueAmp : ('&' : Byte) ∉ kv.2

theorem separate_splitPair (hp : ('&' : Byte) ∉ p) : Separate (splitPair p) := by
  refine ⟨?_, fun h => hp (mem_of_splitPair (.inl h)), fun h => hp (mem_of_splitPair (.inr h))⟩
  unfold splitPair
  cases hf : Cut.find ('=' : Byte) p with
  | none => exact Cut.find_eq_none.1 hf
  | some x => exact (Cut.find_eq_some.1 hf).2

theorem separate_pairsOf (s : Uri.Bytes) : ∀ kv ∈ pairsOf false s, Separate kv := by
  induction hn : s.length using Nat.strong_induction_on generalizing s with
  | _ n ih =>
    obtain rfl | ⟨p, r, rfl, hp, -, hne, hcons⟩ := piece_cases s
    · simp [pairsOf_nil]
    · have hlen := List.length_pos_iff.2 hne
      rw [List.length_append] at hlen hn
      rw [hcons, List.forall_mem_cons]
      exact ⟨separate_splitPair hp, ih _ (by rw [← hn, List.length_tail]; omega) r.tail rfl⟩

/-- What is rebuilt from pairs. -/
def joined (kvs : List (Uri.Bytes × Uri.Bytes)) : Uri.Bytes :=
  kvs.flatMap fun kv => kv.1 ++ ('=' : Byte) :: kv.2

theorem rebuildQuery_kept :
    ((UrlQuery.set q).rebuildQuery (kept q)).q = joined (UrlQuery.set q).pairs := by
  have hread : ∀ v : QueryView, v.Inside q → (kept q).read v = v.text q := by
    intro v hv
    simp [kept, hv.length_text]
  rw [UrlQuery.rebuildQuery, joined, UrlQuery.pairs, List.flatMap_map]
  apply List.flatMap_congr
  intro kv hkv
  obtain ⟨hk, hv⟩ := (set_spec q).2 kv hkv
  rw [hread _ hk, hread _ hv]
  rfl

theorem length_pairsOf_le (h : ('&' : Byte) ∉ s) : (pairsOf last s).length ≤ 1 := by
  unfold pairsOf
  rw [Uri.queryPairs_of_not_mem h]
  split_ifs
  · exact Nat.zero_le 1
  · exact le_rfl

/-- Pairs put together without a `'&'` are one pair at most when they are read again. -/
theorem length_pairsOf_joined {kvs : List (Uri.Bytes × Uri.Bytes)} (h : ∀ kv ∈ kvs, Separate kv) :
    (pairsOf last (joined kvs)).length ≤ 1 := by
  apply length_pairsOf_le
  rw [joined, List.mem_flatMap]
  rintro ⟨kv, hkv, hmem⟩
  have hne : ('&' : Byte) ≠ '=' := by decide
  simp [(h kv hkv).keyAmp, (h kv hkv).valueAmp, hne] at hmem

theorem queryPairs_amp : queryPairs (('&' : Byte) :: r) = ([], []) :: queryPairs r :=
  Uri.queryPairs_append (p := []) List.not_mem_nil

theorem queryPairs_amps {s : Uri.Bytes} (hs : ∀ kv ∈ queryPairs s, kv = ([], [])) :
    ∀ kv ∈ queryPairs (List.replicate n ('&' : Byte) ++ s), kv = ([], []) := by
  induction n with
  | zero => simpa using hs
  | succ n ih =>
    rw [List.replicate_succ, List.cons_append, queryPairs_amp, List.forall_mem_cons]
    exact ⟨rfl, ih⟩

theorem queryPairs_amps_eq :
    ∀ kv ∈ queryPairs (List.replicate n ('&' : Byte) ++ ('=' : Byte) :: List.replicate m '&'),
      kv = ([], []) := by
  apply queryPairs_amps
  cases m with
  | zero => decide
  | succ m =>
    have hnil : ∀ kv ∈ queryPairs (List.replicate m ('&' : Byte) ++ []), kv = ([], []) :=
      queryPairs_amps (by decide)
    have hcons := @Uri.queryPairs_append (Uri.lit "=") (List.replicate m ('&' : Byte)) (by decide)
    rw [List.append_nil] at hnil
    rw [List.replicate_succ]
    change ∀ kv ∈ queryPairs (Uri.lit "=" ++ ('&' : Byte) :: List.replicate m '&'), kv = ([], [])
    rw [hcons, List.forall_mem_cons]
    exact ⟨by decide, hnil⟩

theorem pairsOf_subset : pairsOf last s ⊆ queryPairs s := by
  unfold pairsOf
  split_ifs
  · exact List.dropLast_subset _
  · exact List.Subset.refl _

/-- What `set` stores of a query that is rebuilt, whatever is read: one pair at most, and that
empty. -/
theorem Rebuilds.pairs (h : Rebuilds last q) :
    (UrlQuery.set q).pairs = [] ∨ (UrlQuery.set q).pairs = [([], [])] := by
  have hsep : ∀ kv ∈ (UrlQuery.set q).pairs, Separate kv := fun kv hkv =>
    separate_pairsOf q kv ((set_spec q).1.mem_iff.1 hkv)
  have hlen : (UrlQuery.set q).pairs.length ≤ 1 := by
    rw [← (h.2 (kept q)).length_eq, rebuildQuery_kept]
    exact length_pairsOf_joined hsep
  have hall := h.2 amps
  cases hkvs : (UrlQuery.set q).kvs with
  | nil => exact .inl (by rw [UrlQuery.pairs, hkvs]; rfl)
  | cons kv kvs =>
    have hpairs : (UrlQuery.set q).pairs = pairText q kv :: kvs.map (pairText q) := by
      rw [UrlQuery.pairs, hkvs]
      rfl
    have hnil : kvs = [] := by
      rw [hpairs, List.length_cons, List.length_map] at hlen
      exact List.length_eq_zero_iff.1 (by omega)
    rw [hpairs, hnil] at hall
    have hmem := hall.mem_iff.2 (List.mem_singleton.2 rfl)
    rw [UrlQuery.rebuildQuery, hkvs, hnil] at hmem
    have hkv : pairText q kv = ([], []) :=
      queryPairs_amps_eq (n := kv.1.len) (m := kv.2.len) _
        (by simpa [amps] using pairsOf_subset hmem)
    rw [hpairs, hnil, hkv]
    exact .inr rfl

theorem rebuildQuery_empty (stale : Stale) (h : (UrlQuery.set q).pairs = [([], [])]) :
    ((UrlQuery.set q).rebuildQuery stale).q = Uri.lit "=" := by
  obtain ⟨kv, hkvs, hkv⟩ : ∃ kv, (UrlQuery.set q).kvs = [kv] ∧ pairText q kv = ([], []) := by
    simpa [UrlQuery.pairs, List.map_eq_singleton_iff] using h
  obtain ⟨hk, hv⟩ := (set_spec q).2 kv (by simp [hkvs])
  have hread : ∀ v : QueryView, v.Inside q → v.text q = [] → stale.read v = [] := by
    intro v hin htext
    have := hin.length_text
    rw [htext, List.length_nil] at this
    exact List.length_eq_zero_iff.1 ((stale.length_read v).trans this.symm)
  rw [UrlQuery.rebuildQuery, hkvs]
  simp only [List.flatMap_cons, List.flatMap_nil, hread _ hk (congrArg Prod.fst hkv),
    hread _ hv (congrArg Prod.snd hkv)]
  rfl

/-- The queries without any key or value, and of one pair at most. -/
theorem eq_of_pairsOf (h : pairsOf false q = [([], [])]) :
    q = Uri.lit "=" ∨ q = Uri.lit "&" ∨ q = Uri.lit "=&" := by
  obtain rfl | ⟨p, r, rfl, hp, hr, hne, hcons⟩ := piece_cases q
  · exact absurd h (by decide)
  · rw [hcons, List.cons.injEq] at h
    obtain ⟨hsplit, htail⟩ := h
    have hr' : r = [] ∨ r = Uri.lit "&" := by
      cases r with
      | nil => exact .inl rfl
      | cons c r =>
        obtain rfl := hr c rfl
        obtain rfl | ⟨p', r', rfl, -, -, -, hcons'⟩ := piece_cases r
        · exact .inr rfl
        · rw [List.tail_cons, hcons'] at htail
          cases htail
    have hp' : p = [] ∨ p = Uri.lit "=" := by
      unfold splitPair at hsplit
      cases hf : Cut.find ('=' : Byte) p with
      | none =>
        rw [hf] at hsplit
        exact .inl (congrArg Prod.fst hsplit)
      | some x =>
        rw [hf, Option.getD_some] at hsplit
        rw [(Cut.find_eq_some.1 (hf.trans (congrArg some hsplit))).1]
        exact .inr rfl
    obtain rfl | rfl := hr'
    · obtain rfl | rfl := hp'
      · exact absurd rfl hne
      · exact .inl rfl
    · obtain rfl | rfl := hp'
      · exact .inr (.inl rfl)
      · exact .inr (.inr rfl)

/-- Even where the views can still be read, only one pair survives: nothing is put between two. -/
theorem rebuilds_kept_iff (q : Uri.Bytes) :
    (pairsOf false ((UrlQuery.set q).rebuildQuery (kept q)).q).Perm (UrlQuery.set q).pairs ↔
      (UrlQuery.set q).pairs.length ≤ 1 := by
  have hsep : ∀ kv ∈ (UrlQuery.set q).pairs, Separate kv := fun kv hkv =>
    separate_pairsOf q kv ((set_spec q).1.mem_iff.1 hkv)
  rw [rebuildQuery_kept]
  constructor
  · intro h
    rw [← h.length_eq]
    exact length_pairsOf_joined hsep
  · intro h
    cases hkvs : (UrlQuery.set q).pairs with
    | nil => exact List.Perm.nil
    | cons kv kvs =>
      obtain rfl : kvs = [] := by
        rw [hkvs, List.length_cons] at h
        exact List.length_eq_zero_iff.1 (by omega)
      obtain ⟨hke, hka, hva⟩ := hsep kv (by simp [hkvs])
      have hne : ('&' : Byte) ≠ '=' := by decide
      have hp : ('&' : Byte) ∉ kv.1 ++ ('=' : Byte) :: kv.2 := by simp [hka, hva, hne]
      have hjoined : joined [kv] = kv.1 ++ ('=' : Byte) :: kv.2 := by simp [joined]
      rw [hjoined, pairsOf_piece hp (by simp), Uri.splitPair_append hke]

/-- `rebuild_query` reads views into what it has just cleared, and puts nothing between the
pairs. -/
theorem rebuild_query_iff (last : Bool) (q : Uri.Bytes) : Rebuilds last q ↔
    q = Uri.lit "=" ∨ last = false ∧ (q = [] ∨ q = Uri.lit "&" ∨ q = Uri.lit "=&") := by
  constructor
  · intro h
    have hset := (set_spec q).1
    obtain hnil | hone := h.pairs
    · rw [hnil, List.nil_perm] at hset
      obtain rfl | ⟨p, r, rfl, -, -, -, hcons⟩ := piece_cases q
      · cases last with
        | false => exact .inr ⟨rfl, .inl rfl⟩
        | true =>
          have := h.1
          rw [hnil, List.nil_perm] at this
          exact absurd this queryPairs_ne_nil
      · rw [hcons] at hset
        cases hset
    · rw [hone, List.singleton_perm] at hset
      obtain hq | hq := eq_of_pairsOf hset.symm
      · exact .inl hq
      · cases last with
        | false => exact .inr ⟨rfl, .inr hq⟩
        | true =>
          have := h.1
          rw [hone, List.singleton_perm] at this
          obtain rfl | rfl := hq
          · exact absurd this (by decide)
          · exact absurd this (by decide)
  · have hone : ∀ last q, pairsOf false q = [([], [])] → pairsOf last q = [([], [])] →
        Rebuilds last q := by
      intro last q hfalse hlast
      have hpairs : (UrlQuery.set q).pairs = [([], [])] :=
        List.perm_singleton.1 (hfalse ▸ (set_spec q).1)
      refine ⟨by rw [hpairs, hlast], fun stale => ?_⟩
      have heq : pairsOf last (Uri.lit "=") = [([], [])] := by
        cases last with
        | false => decide
        | true => decide
      rw [rebuildQuery_empty stale hpairs, hpairs, heq]
    rintro (rfl | ⟨rfl, rfl | rfl | rfl⟩)
    · cases last with
      | false => exact hone false _ (by decide) (by decide)
      | true => exact hone true _ (by decide) (by decide)
    · have hpairs := (set_spec []).1
      rw [pairsOf_nil, List.perm_nil] at hpairs
      refine ⟨by rw [hpairs, pairsOf_nil], fun stale => ?_⟩
      have hkvs : (UrlQuery.set []).kvs = [] := by
        rwa [UrlQuery.pairs, List.map_eq_nil_iff] at hpairs
      rw [UrlQuery.rebuildQuery, hpairs, hkvs]
      exact List.Perm.nil
    · exact hone false _ (by decide) (by decide)
    · exact hone false _ (by decide) (by decide)

/-- Also where the characters are still there. -/
theorem not_rebuilds_two :
    ((UrlQuery.set (Uri.lit "a=1&b=2")).rebuildQuery (kept (Uri.lit "a=1&b=2"))).q =
      Uri.lit "a=1b=2" ∧
      ¬Rebuilds false (Uri.lit "a=1&b=2") ∧ ¬Rebuilds true (Uri.lit "a=1&b=2") := by
  have hq : ((UrlQuery.set (Uri.lit "a=1&b=2")).rebuildQuery (kept (Uri.lit "a=1&b=2"))).q =
      Uri.lit "a=1b=2" := by decide
  refine ⟨hq, fun h => ?_, fun h => ?_⟩
  · have := (h.2 (kept (Uri.lit "a=1&b=2"))).length_eq
    rw [hq, h.1.length_eq] at this
    exact absurd this (by decide)
  · have := (h.2 (kept (Uri.lit "a=1&b=2"))).length_eq
    rw [hq, h.1.length_eq] at this
    exact absurd this (by decide)

end Jkl.Client
