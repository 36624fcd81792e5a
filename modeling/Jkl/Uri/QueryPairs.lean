import Jkl.Uri.CodecSpec
import Jkl.Uri.Comp

/-! Pairs in a query: what is written for them, and what a reader that splits at the delimiters
gets back. -/
namespace Jkl.Uri

open Cut (find find_append find_eq_some)

variable {asserts : Bool} {s t : Bytes} {kv : Bytes × Bytes} {kvs : List (Bytes × Bytes)}
  {ls : List Bytes} {c x : Byte}

/-! The delimiters. -/

/-- A piece at its first `'='`; without one it is all key. -/
def splitPair (piece : Bytes) : Bytes × Bytes := (find ('=' : Byte) piece).getD (piece, [])

/-- The pairs between the `'&'`s of a query. -/
def queryPairs (query : Bytes) : List (Bytes × Bytes) :=
  (query.splitOn ('&' : Byte)).map splitPair

theorem splitPair_append (h : ('=' : Byte) ∉ s) : splitPair (s ++ ('=' : Byte) :: t) = (s, t) := by
  rw [splitPair, find_append h, Option.getD_some]

theorem splitOn_intercalate_eq (h : ls ≠ []) :
    ([c].intercalate ls).splitOn c = ls.flatMap (List.splitOn c) := by
  induction ls with
  | nil => exact absurd rfl h
  | cons l ls ih =>
    cases ls with
    | nil => simp
    | cons l' ls =>
      rw [List.intercalate_cons_cons, List.append_assoc, List.singleton_append,
        List.splitOn_append_cons_self, ih (List.cons_ne_nil _ _)]
      rfl

theorem one_le_length_splitOn : 1 ≤ (s.splitOn c).length :=
  List.length_pos_iff.2 (List.splitOn_ne_nil c s)

theorem not_mem_of_length_splitOn (h : (s.splitOn c).length ≤ 1) : c ∉ s := by
  intro hc
  obtain ⟨a, b, rfl⟩ := List.append_of_mem hc
  have ha := @one_le_length_splitOn a c
  have hb := @one_le_length_splitOn b c
  rw [List.splitOn_append_cons_self, List.length_append] at h
  omega

/-- Only pieces without the delimiter are as many after they have been split again. -/
theorem not_mem_of_length_flatMap (h : (ls.flatMap (List.splitOn c)).length ≤ ls.length) :
    ∀ l ∈ ls, c ∉ l := by
  have hle : ∀ ls : List Bytes, ls.length ≤ (ls.flatMap (List.splitOn c)).length := by
    intro ls
    induction ls with
    | nil => exact le_rfl
    | cons l ls ih =>
      have := @one_le_length_splitOn l c
      rw [List.flatMap_cons, List.length_append, List.length_cons]
      omega
  induction ls with
  | nil => simp
  | cons l ls ih =>
    have hls := hle ls
    have hl := @one_le_length_splitOn l c
    rw [List.flatMap_cons, List.length_append, List.length_cons] at h
    rw [List.forall_mem_cons]
    exact ⟨not_mem_of_length_splitOn (by omega), ih (by omega)⟩

/-! Writing. -/

/-- What is written for a decoded pair, but for the delimiter behind it. -/
def pairText (kv : Bytes × Bytes) : Bytes :=
  escapeAppend .query kv.1 ++ ('=' : Byte) :: escapeAppend .query kv.2

theorem appendQueryPairs_eq : appendQueryPairs asserts .urlEncoded .urlDecoded
    (kvs.map fun kv => (kv.1, .str kv.2)) =
      .ok (kvs.flatMap fun kv => pairText kv ++ [('&' : Byte)]) := by
  induction kvs with
  | nil => rfl
  | cons kv kvs ih =>
    rw [List.map_cons, appendQueryPairs, ih]
    have hpair : appendQueryPair asserts .urlEncoded .urlDecoded (kv.1, .str kv.2) =
        .ok (pairText kv ++ [('&' : Byte)]) := by
      simp [appendQueryPair, codecCvtAppend, encodeAppend, Value.stringify, pairText]
    rw [hpair, Out.ok_append_ok, List.flatMap_cons]

theorem dropLast_flatMap (h : ls ≠ []) :
    (ls.flatMap fun l => l ++ [c]).dropLast = [c].intercalate ls := by
  induction ls with
  | nil => exact absurd rfl h
  | cons l ls ih =>
    cases ls with
    | nil => simp
    | cons l' ls =>
      have hne : ((l' :: ls).flatMap fun l => l ++ [c]) ≠ [] := by simp
      rw [List.flatMap_cons, List.dropLast_append_of_ne_nil hne, ih (List.cons_ne_nil _ _),
        List.intercalate_cons_cons, List.append_assoc]

theorem write_pairs (h : kvs ≠ []) :
    ((WriteComp.pairs .urlDecoded (kvs.map fun kv => (kv.1, .str kv.2))).write asserts
      .urlEncoded).Yields ([('&' : Byte)].intercalate (kvs.map pairText)) := by
  rw [WriteComp.write, appendQueryPairs_eq]
  refine ⟨rfl, ?_⟩
  have := @dropLast_flatMap (kvs.map pairText) '&' (by simpa using h)
  rwa [List.flatMap_map] at this

/-! Reading back. -/

/-- Neither delimiter is escaped in a query, nor does escaping put one in. -/
theorem delimiter_mem_escapeAppend (hx : x = '=' ∨ x = '&') :
    x ∈ escapeAppend .query s ↔ x ∈ s := by
  have hbyte : ∀ c : Byte, (('=' : Byte) ∈ escapeByte .query c ↔ c = '=') ∧
      (('&' : Byte) ∈ escapeByte .query c ↔ c = '&') := forall_byte (by decide +kernel)
  rw [escapeAppend, List.mem_flatMap]
  obtain rfl | rfl := hx
  · simp only [(hbyte _).1, exists_eq_right]
  · simp only [(hbyte _).2, exists_eq_right]

/-- The pairs survive: they are read back, split and decoded, from what is written for them. -/
def Survives (asserts : Bool) (kvs : List (Bytes × Bytes)) : Prop :=
  let o := (WriteComp.pairs .urlDecoded (kvs.map fun kv => (kv.1, .str kv.2))).write asserts
    .urlEncoded
  o.stop = none ∧
    ((queryPairs o.text).map fun kv => (decodeAppend .query kv.1, decodeAppend .query kv.2)) =
      kvs.map fun kv => (Out.ok kv.1, Out.ok kv.2)

instance : Decidable (Survives asserts kvs) := inferInstanceAs (Decidable (_ ∧ _))

theorem decode_pairText (h : ('=' : Byte) ∉ kv.1) :
    (decodeAppend .query (splitPair (pairText kv)).1,
      decodeAppend .query (splitPair (pairText kv)).2) = (Out.ok kv.1, Out.ok kv.2) := by
  have hk : ('=' : Byte) ∉ escapeAppend .query kv.1 := by
    rwa [delimiter_mem_escapeAppend (.inl rfl)]
  have hdecode : ∀ s, decodeAppend .query (escapeAppend .query s) = .ok s := fun s =>
    @unescape_escape .query s
  rw [pairText, splitPair_append hk, hdecode, hdecode]

/-- A key that has an `'='` ends there for the reader. -/
theorem not_mem_of_decode_pairText
    (h : decodeAppend .query (splitPair (pairText kv)).1 = .ok kv.1) : ('=' : Byte) ∉ kv.1 := by
  intro hmem
  obtain ⟨q, hq⟩ : ∃ q, find ('=' : Byte) kv.1 = some q := by
    rw [← Option.ne_none_iff_exists', Ne, Cut.find_eq_none]
    exact not_not.2 hmem
  obtain ⟨hkey, hn⟩ := find_eq_some.1 hq
  have hn' : ('=' : Byte) ∉ escapeAppend .query q.1 := by
    rwa [delimiter_mem_escapeAppend (.inl rfl)]
  have hdelim : escapeByte .query ('=' : Byte) = [('=' : Byte)] := by decide
  have hfst : (splitPair (pairText kv)).1 = escapeAppend .query q.1 := by
    rw [pairText, hkey, escapeAppend_append, escapeAppend_cons, hdelim, List.append_assoc,
      List.append_assoc, List.singleton_append, splitPair_append hn']
  have hdecode : decodeAppend .query (escapeAppend .query q.1) = .ok q.1 :=
    @unescape_escape .query q.1
  rw [hfst, hdecode, Out.ok_inj] at h
  have := congrArg List.length (h.trans hkey)
  simp at this

theorem amp_mem_pairText :
    ('&' : Byte) ∈ pairText kv ↔ ('&' : Byte) ∈ kv.1 ∨ ('&' : Byte) ∈ kv.2 := by
  have hne : ('&' : Byte) ≠ '=' := by decide
  rw [pairText, List.mem_append, List.mem_cons, delimiter_mem_escapeAppend (.inr rfl),
    delimiter_mem_escapeAppend (.inr rfl)]
  simp only [hne, false_or]

/-- Pairs survive encoding exactly when no key has a delimiter and no value an `'&'`. -/
theorem survives_iff (asserts : Bool) (kvs : List (Bytes × Bytes)) (h : kvs ≠ []) :
    Survives asserts kvs ↔
      ∀ kv ∈ kvs, ('=' : Byte) ∉ kv.1 ∧ ('&' : Byte) ∉ kv.1 ∧ ('&' : Byte) ∉ kv.2 := by
  have hne : kvs.map pairText ≠ [] := by simpa using h
  obtain ⟨hstop, htext⟩ := @write_pairs asserts kvs h
  unfold Survives
  dsimp only
  rw [htext, queryPairs, splitOn_intercalate_eq hne]
  constructor
  · rintro ⟨-, hpairs⟩
    -- as many pieces as pairs: none has been cut
    have hamp : ∀ l ∈ kvs.map pairText, ('&' : Byte) ∉ l := by
      apply not_mem_of_length_flatMap
      have := congrArg List.length hpairs
      simp only [List.length_map] at this
      rw [this, List.length_map]
    have hsplit : (kvs.map pairText).flatMap (List.splitOn ('&' : Byte)) = kvs.map pairText := by
      rw [← splitOn_intercalate_eq hne, List.splitOn_intercalate _ hamp hne]
    rw [hsplit, List.map_map, List.map_map, List.map_inj_left] at hpairs
    intro kv hkv
    have hkey := not_mem_of_decode_pairText (congrArg Prod.fst (hpairs kv hkv))
    have := hamp _ (List.mem_map_of_mem hkv)
    rw [amp_mem_pairText, not_or] at this
    exact ⟨hkey, this⟩
  · intro hkvs
    have hamp : ∀ l ∈ kvs.map pairText, ('&' : Byte) ∉ l := by
      intro l hl
      obtain ⟨kv, hkv, rfl⟩ := List.mem_map.1 hl
      rw [amp_mem_pairText, not_or]
      exact (hkvs kv hkv).2
    refine ⟨hstop, ?_⟩
    rw [← splitOn_intercalate_eq hne, List.splitOn_intercalate _ hamp hne, List.map_map,
      List.map_map, List.map_inj_left]
    exact fun kv hkv => decode_pairText (hkvs kv hkv).1

theorem survives_blank :
    Survives true [(lit "a b", lit "1=1"), (lit "%", lit "")] :=
  (survives_iff true _ (by decide)).2 (by decide)

theorem not_survives_delimiter : ¬∀ kvs : List (Bytes × Bytes), kvs ≠ [] → Survives false kvs :=
  fun h => absurd (h [(lit "a=b", lit "c")] (by decide)) (by decide +kernel)

end Jkl.Uri
