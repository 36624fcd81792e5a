import Mathlib.Algebra.Group.Int.Defs
import Mathlib.Algebra.Group.Nat.Defs
import Mathlib.Data.Int.Basic
import Mathlib.Data.List.Basic
import Mathlib.Tactic.Common

/-! `read_jarr`: the elements of a JSON array, for one target after the other. -/
namespace Jkl.Json

variable {J : Type*}

/-- A JSON array; `SizeType` is `unsigned`. -/
structure JArr (J : Type*) where
  elems : List J
  size_lt : elems.length < 2 ^ 32

/-- A target with what becomes of an element there: `read_jval` into the target or into one of its
own elements, or a call of it. -/
inductive Target (J : Type*) where
  | array (extent : ℕ) (read : J → Bool)
  | seq (read : J → Bool)
  | tuple (reads : List (J → Bool))
  | functor (f : J → Bool)
  | prim (read : J → Bool)

inductive Fault where
  /-- `ja[i]` for an `i` that is no index. -/
  | index (i : ℤ)
  /-- A signed operation outside `int`. -/
  | overflow
deriving DecidableEq, Repr

/-- What `_read_jarr_elems` does: the indices it uses, what it resizes a sequence to, and what it
returns. -/
structure Taken where
  reads : List ℤ
  resized : Option ℤ
  result : Except Fault Bool

def IsInt (x : ℤ) : Prop := -2 ^ 31 ≤ x ∧ x < 2 ^ 31

instance : DecidablePred IsInt := fun _ => inferInstanceAs (Decidable (_ ∧ _))

/-- `int s = jarr_size(ja)`. -/
def jarrSize (ja : List J) : ℤ := (ja.length : ℤ).bmod (2 ^ 32)

/-- `s - lastUsed + 1`. -/
def remaining (s lastUsed : ℤ) : Option ℤ :=
  if IsInt (s - lastUsed) ∧ IsInt (s - lastUsed + 1) then some (s - lastUsed + 1) else none

/-- `++lastUsed; if(! read_jval(ja[lastUsed], e)) return false;` for each `e`. -/
def readEach (ja : List J) : List (J → Bool) → (lastUsed : ℤ) → List ℤ × Except Fault Bool
  | [], _ => ([], .ok true)
  | f :: fs, lastUsed =>
    let i := lastUsed + 1
    match ja[i.toNat]? with
    | none => ([i], .error (.index i))
    | some e =>
      if f e then (i :: (readEach ja fs i).1, (readEach ja fs i).2) else ([i], .ok false)

def readJarrElems (ja : List J) (lastUsed s : ℤ) (v : Target J) : Taken :=
  match remaining s lastUsed with
  | none => ⟨[], none, .error .overflow⟩
  | some remain =>
    if remain < 1 then ⟨[], none, .ok false⟩
    else match v with
      | .array extent read =>
        if extent > remain then ⟨[], none, .ok false⟩
        else
          let r := readEach ja (List.replicate extent read) lastUsed
          ⟨r.1, none, r.2⟩
      | .seq read =>
        let r := readEach ja (List.replicate remain.toNat read) lastUsed
        ⟨r.1, some remain, r.2⟩
      | .tuple reads =>
        if reads.length > remain then ⟨[], none, .ok false⟩
        else
          let r := readEach ja reads lastUsed
          ⟨r.1, none, r.2⟩
      | .functor f =>
        let r := readEach ja [f] lastUsed
        ⟨r.1, none, r.2⟩
      | .prim read =>
        let r := readEach ja [read] lastUsed
        ⟨r.1, none, r.2⟩

/-- A call of `_read_jarr_elems`. -/
structure Visit (J : Type*) where
  target : Target J
  lastUsed : ℤ
  taken : Taken

/-- `(… && _read_jarr_elems(ja, lastUsed, s, v))`: the calls that are made, and the result. Each
index that is used has `lastUsed` incremented once. -/
def readJarrFrom (ja : List J) (s : ℤ) : ℤ → List (Target J) → List (Visit J) × Except Fault Bool
  | _, [] => ([], .ok true)
  | lastUsed, v :: vs =>
    let t := readJarrElems ja lastUsed s v
    match t.result with
    | .ok true =>
      let r := readJarrFrom ja s (lastUsed + t.reads.length) vs
      (⟨v, lastUsed, t⟩ :: r.1, r.2)
    | r => ([⟨v, lastUsed, t⟩], r)

def readJarr (ja : JArr J) (vs : List (Target J)) : List (Visit J) × Except Fault Bool :=
  readJarrFrom ja.elems (jarrSize ja.elems) (-1) vs

/-! What the comment at `read_jarr` says. -/

/-- What a target uses of `left` elements, one read each. -/
def Target.needs (v : Target J) (left : ℕ) : List (J → Bool) :=
  match v with
  | .array extent read => List.replicate extent read
  | .seq read => List.replicate left read
  | .tuple reads => reads
  | .functor f => [f]
  | .prim read => [read]

/-- How many of the elements are read, when the reads stop at the first that fails. -/
def tried : List (J → Bool) → List J → ℕ
  | f :: fs, e :: es => if f e then tried fs es + 1 else 1
  | _, _ => 0

/-- No read of the elements fails. -/
def allRead : List (J → Bool) → List J → Bool
  | f :: fs, e :: es => f e && allRead fs es
  | _, _ => true

/-- `n` indices from `u` on. -/
def indices (u n : ℕ) : List ℤ := (List.range' u n).map fun i : ℕ => (i : ℤ)

namespace Visit

/-- The elements that remain for the target. -/
def left (ja : List J) (e : Visit J) : List J := ja.drop (e.lastUsed + 1).toNat

def needs (ja : List J) (e : Visit J) : List (J → Bool) := e.target.needs (e.left ja).length

/-- A target uses the elements that it needs, up to one that cannot be read, and none if there
are not as many; a sequence gets the size of what is left. -/
structure Documented (ja : List J) (e : Visit J) : Prop where
  inside : ∀ i ∈ e.taken.reads, 0 ≤ i ∧ i < ja.length
  takes : (e.needs ja).length ≤ (e.left ja).length →
    e.taken.reads = indices (e.lastUsed + 1).toNat (tried (e.needs ja) (e.left ja)) ∧
      e.taken.result = .ok (allRead (e.needs ja) (e.left ja))
  short : (e.left ja).length < (e.needs ja).length → e.taken.result = .ok false
  resized : ∀ read, e.target = .seq read → e.taken.resized = some ((e.left ja).length : ℤ)

end Visit

/-- All calls are as documented, and too few elements make the result false. -/
structure ReadsAsDocumented (ja : JArr J) (vs : List (Target J)) : Prop where
  visits : ∀ e ∈ (readJarr ja vs).1, e.Documented ja.elems
  short : (∃ e ∈ (readJarr ja vs).1, (e.left ja.elems).length < (e.needs ja.elems).length) →
    (readJarr ja vs).2 = .ok false

/-! When it does. -/

def Target.isSeq : Target J → Bool
  | .seq _ => true
  | _ => false

/-- What is counted as remaining where `left` elements do: two too many, and `2 ^ 32` less than
that in an array whose size is no `int`. -/
def counted (ja : List J) (left : ℕ) : ℤ := left + 2 - if ja.length < 2 ^ 31 then 0 else 2 ^ 32

/-- A target meets the documentation behind `u` used elements. A sequence never does. Another
target that is short of one or two elements goes on to read what is left, so a read has to fail.
The last case is for arrays so large that the count can leave `int` or be of a negative size. -/
def TargetFits (ja : List J) (u : ℕ) (v : Target J) : Prop :=
  let left := ja.drop u
  let needs := v.needs left.length
  v.isSeq = false ∧
    if ja.length < 2 ^ 31 - 2 then
      left.length < needs.length → left.length + 2 < needs.length ∨ allRead needs left = false
    else
      IsInt (counted ja left.length - 1) ∧ IsInt (counted ja left.length) ∧
        if left.length < needs.length then
          counted ja left.length < needs.length ∨ allRead needs left = false
        else 1 ≤ counted ja left.length ∧ needs.length ≤ counted ja left.length

/-- All targets that are reached do. -/
def TargetsFit (ja : List J) : (u : ℕ) → List (Target J) → Prop
  | _, [] => True
  | u, v :: vs =>
    let left := ja.drop u
    let needs := v.needs left.length
    TargetFits ja u v ∧ (needs.length ≤ left.length → allRead needs left = true →
      TargetsFit ja (u + needs.length) vs)

variable {ja : List J} {u : ℕ} {v : Target J} {vs : List (Target J)} {fs : List (J → Bool)} {s : ℤ}

/-- `s` is the size as an `int`. -/
def IsSize (ja : List J) (s : ℤ) : Prop :=
  s = if ja.length < 2 ^ 31 then (ja.length : ℤ) else ja.length - 2 ^ 32

theorem isSize_jarrSize (h : ja.length < 2 ^ 32) : IsSize ja (jarrSize ja) := by
  unfold IsSize jarrSize
  split_ifs <;> rw [Int.bmod_def] <;> omega

theorem remaining_eq (hs : IsSize ja s) (hu : u ≤ ja.length) :
    remaining s (u - 1) =
      if IsInt (counted ja (ja.drop u).length - 1) ∧ IsInt (counted ja (ja.drop u).length) then
        some (counted ja (ja.drop u).length)
      else none := by
  have hleft : (ja.drop u).length = ja.length - u := List.length_drop
  have hcount : s - (u - 1) + 1 = counted ja (ja.drop u).length := by
    rw [hs, hleft, counted]
    split_ifs <;> omega
  rw [remaining, hcount, show s - (u - 1) = counted ja (ja.drop u).length - 1 by omega]

/-- A size well inside `int` is no different from a larger one that stays inside. -/
theorem targetFits_iff (hs : IsSize ja s) (hu : u ≤ ja.length) :
    TargetFits ja u v ↔ v.isSeq = false ∧ ∃ remain ∈ remaining s (u - 1),
      if (ja.drop u).length < (v.needs (ja.drop u).length).length then
        remain < (v.needs (ja.drop u).length).length ∨
          allRead (v.needs (ja.drop u).length) (ja.drop u) = false
      else 1 ≤ remain ∧ (v.needs (ja.drop u).length).length ≤ remain := by
  have hleft : (ja.drop u).length = ja.length - u := List.length_drop
  rw [remaining_eq hs hu]
  unfold TargetFits
  dsimp only
  apply and_congr_right'
  generalize v.needs (ja.drop u).length = needs
  by_cases hlt : ja.length < 2 ^ 31 - 2
  · have hcount : counted ja (ja.drop u).length = ((ja.drop u).length + 2 : ℕ) := by
      rw [counted, if_pos (by omega)]
      omega
    have hint : IsInt (counted ja (ja.drop u).length - 1) ∧
        IsInt (counted ja (ja.drop u).length) := by
      unfold IsInt
      omega
    rw [if_pos hlt, if_pos hint]
    simp only [Option.mem_some_iff, exists_eq_left', hcount]
    split_ifs with hshort
    · rw [imp_iff_right hshort, Int.ofNat_lt]
    · exact iff_of_true (fun h => absurd h hshort) (by omega)
  · rw [if_neg hlt]
    by_cases hint : IsInt (counted ja (ja.drop u).length - 1) ∧
        IsInt (counted ja (ja.drop u).length)
    · rw [if_pos hint, ← and_assoc, and_iff_right hint]
      simp only [Option.mem_some_iff, exists_eq_left']
    · rw [if_neg hint, ← and_assoc]
      exact iff_of_false (fun h => hint h.1) (by simp)

theorem length_indices {n : ℕ} : (indices u n).length = n := by
  simp [indices]

theorem mem_indices {n : ℕ} {i : ℤ} : i ∈ indices u n ↔ u ≤ i ∧ i < u + n := by
  simp only [indices, List.mem_map, List.mem_range'_1]
  constructor
  · rintro ⟨k, hk, rfl⟩
    omega
  · intro h
    exact ⟨i.toNat, by omega, by omega⟩

theorem indices_succ {n : ℕ} : indices u (n + 1) = (u : ℤ) :: indices (u + 1) n := by
  simp [indices, List.range'_succ]

theorem tried_le {es : List J} : tried fs es ≤ es.length := by
  fun_induction tried fs es with
  | case1 f fs e es h ih => simp [ih]
  | case2 f fs e es h => simp
  | case3 => exact Nat.zero_le _

theorem tried_of_allRead {es : List J} (h : allRead fs es = true) (hle : fs.length ≤ es.length) :
    tried fs es = fs.length := by
  fun_induction tried fs es with
  | case1 f fs e es hf ih =>
    simp only [allRead, hf, Bool.true_and] at h
    rw [ih h (by simpa using hle), List.length_cons]
  | case2 f fs e es hf => simp [allRead, hf] at h
  | case3 fs es hne =>
    cases fs with
    | nil => rfl
    | cons f fs =>
      cases es with
      | nil => simp at hle
      | cons e es => exact absurd rfl (hne f fs e es rfl)

/-- The reads of a target that has not too many of them for `remaining`. -/
theorem readEach_spec (hu : u ≤ ja.length) : readEach ja fs (u - 1) =
    if (ja.drop u).length < fs.length ∧ allRead fs (ja.drop u) = true then
      (indices u ((ja.drop u).length + 1), .error (.index ja.length))
    else (indices u (tried fs (ja.drop u)), .ok (allRead fs (ja.drop u))) := by
  induction fs generalizing u with
  | nil => simp [readEach, tried, allRead, indices]
  | cons f fs ih =>
    have hi : ((u : ℤ) - 1 + 1) = u := by omega
    rw [readEach, hi, Int.toNat_natCast]
    obtain rfl | hlt := Nat.eq_or_lt_of_le hu
    · simp [allRead, indices]
    · rw [List.getElem?_eq_getElem hlt, List.drop_eq_getElem_cons hlt]
      by_cases hf : f ja[u] = true
      · have hih := ih (u := u + 1) hlt
        rw [show ((u + 1 : ℕ) : ℤ) - 1 = u by omega] at hih
        simp only [hf, if_true, hih, allRead, Bool.true_and, tried, List.length_cons,
          Nat.add_lt_add_iff_right]
        split_ifs
        · simp only [indices_succ]
        · simp only [indices_succ]
      · simp [hf, allRead, tried, indices]

theorem allRead_of_tried {es : List J} (h : tried fs es = 0) : allRead fs es = true := by
  cases fs with
  | nil => rfl
  | cons f fs =>
    cases es with
    | nil => rfl
    | cons e es =>
      rw [tried] at h
      split_ifs at h

/-- All targets but sequences are alike. -/
theorem readJarrElems_eq {lastUsed s remain : ℤ} (hv : v.isSeq = false)
    (h : remaining s lastUsed = some remain) (left : ℕ) :
    readJarrElems ja lastUsed s v =
      if remain < 1 ∨ remain < (v.needs left).length then ⟨[], none, .ok false⟩
      else ⟨(readEach ja (v.needs left) lastUsed).1, none,
        (readEach ja (v.needs left) lastUsed).2⟩ := by
  unfold readJarrElems
  rw [h]
  dsimp only
  by_cases hremain : remain < 1
  · rw [if_pos hremain, if_pos (.inl hremain)]
  · rw [if_neg hremain]
    cases v with
    | array extent read => simp [Target.needs, hremain]
    | seq read => cases hv
    | tuple reads => simp [Target.needs, hremain]
    | functor f => simp [Target.needs, hremain]
    | prim read => simp [Target.needs, hremain]

/-- The call for a target behind `u` used elements. -/
def visitAt (ja : List J) (s : ℤ) (u : ℕ) (v : Target J) : Visit J :=
  ⟨v, u - 1, readJarrElems ja (u - 1) s v⟩

theorem visitAt_taken :
    (visitAt ja s u v).taken = readJarrElems ja (u - 1) s v := by
  simp only [visitAt]

theorem visitAt_left : (visitAt ja s u v).left ja = ja.drop u := by
  unfold Visit.left visitAt
  rw [show ((u : ℤ) - 1 + 1).toNat = u by omega]

theorem visitAt_needs : (visitAt ja s u v).needs ja = v.needs (ja.drop u).length := by
  rw [Visit.needs, visitAt_left]
  rfl

/-- What is counted as remaining is never what remains. -/
theorem remaining_ne {remain : ℤ} (hs : IsSize ja s) (hu : u ≤ ja.length)
    (h : remaining s (u - 1) = some remain) : remain ≠ (ja.drop u).length := by
  rw [remaining_eq hs hu] at h
  split_ifs at h
  rw [← Option.some.inj h, counted]
  split_ifs <;> omega

theorem resized_seq {lastUsed s : ℤ} {read : J → Bool} {n : ℤ}
    (h : (readJarrElems ja lastUsed s (.seq read)).resized = some n) :
    remaining s lastUsed = some n := by
  unfold readJarrElems at h
  cases hr : remaining s lastUsed with
  | none => simp [hr] at h
  | some remain =>
    rw [hr] at h
    dsimp only at h
    split_ifs at h
    exact h

theorem not_documented_seq {read : J → Bool} (hs : IsSize ja s) (hu : u ≤ ja.length) :
    ¬(visitAt ja s u (.seq read)).Documented ja := by
  intro h
  have hresized := h.resized read rfl
  rw [visitAt_left, visitAt_taken] at hresized
  have hremain := resized_seq hresized
  exact remaining_ne hs hu hremain rfl

theorem Visit.Documented.ok {e : Visit J} (h : e.Documented ja) :
    ∃ b, e.taken.result = .ok b := by
  by_cases hneed : (e.needs ja).length ≤ (e.left ja).length
  · exact ⟨_, (h.takes hneed).2⟩
  · exact ⟨_, h.short (by omega)⟩

/-- A call that reads nothing and fails is right if there are too few elements. -/
theorem documented_of_none {e : Visit J} (hseq : ∀ read, e.target ≠ .seq read)
    (h : e.taken = ⟨[], none, .ok false⟩) :
    e.Documented ja ↔ (e.left ja).length < (e.needs ja).length := by
  constructor
  · intro hdoc
    by_contra hle
    obtain ⟨hreads, hresult⟩ := hdoc.takes (Nat.le_of_not_lt hle)
    rw [h] at hreads hresult
    have htried := congrArg List.length hreads
    rw [length_indices, List.length_nil] at htried
    rw [allRead_of_tried htried.symm] at hresult
    cases hresult
  · intro hshort
    constructor
    case inside => simp [h]
    case takes => exact fun hle => absurd hshort (Nat.not_lt.2 hle)
    case short => exact fun _ => by rw [h]
    case resized => exact fun read hread => absurd hread (hseq read)

/-- A call that reads what it needs, as far as there are elements, is right if it does not succeed
where there are too few. -/
theorem documented_of_reads {e : Visit J} (hseq : ∀ read, e.target ≠ .seq read)
    (hu : (e.lastUsed + 1).toNat ≤ ja.length)
    (h : e.taken = ⟨indices (e.lastUsed + 1).toNat (tried (e.needs ja) (e.left ja)), none,
      .ok (allRead (e.needs ja) (e.left ja))⟩) :
    e.Documented ja ↔
      ((e.left ja).length < (e.needs ja).length → allRead (e.needs ja) (e.left ja) = false) := by
  constructor
  · intro hdoc hshort
    have hresult := hdoc.short hshort
    rw [h] at hresult
    exact Except.ok.inj hresult
  · intro hfails
    constructor
    case inside =>
      intro i hi
      rw [h] at hi
      have htried := @tried_le J (e.needs ja) (e.left ja)
      have hleft : (e.left ja).length = ja.length - (e.lastUsed + 1).toNat := List.length_drop
      have := mem_indices.1 hi
      omega
    case takes => exact fun _ => by rw [h]; exact ⟨rfl, rfl⟩
    case short => exact fun hshort => by rw [h, hfails hshort]
    case resized => exact fun read hread => absurd hread (hseq read)

theorem not_documented_of_error {e : Visit J} {fault : Fault} (h : e.taken.result = .error fault) :
    ¬e.Documented ja := by
  intro hdoc
  obtain ⟨b, hb⟩ := hdoc.ok
  rw [h] at hb
  cases hb

theorem documented_iff (hs : IsSize ja s) (hu : u ≤ ja.length) :
    (visitAt ja s u v).Documented ja ↔ TargetFits ja u v := by
  by_cases hseq : v.isSeq = false
  · have hresized : ∀ read, (visitAt ja s u v).target ≠ .seq read := by
      intro read h
      have hv : v = .seq read := h
      rw [hv] at hseq
      cases hseq
    have hneeds := @visitAt_needs J ja u v s
    have hat : ((visitAt ja s u v).lastUsed + 1).toNat = u := by
      simp only [visitAt]
      omega
    cases hr : remaining s (u - 1) with
    | none =>
      have htaken : (visitAt ja s u v).taken = ⟨[], none, .error .overflow⟩ := by
        rw [visitAt_taken, readJarrElems, hr]
      refine iff_of_false (not_documented_of_error (congrArg Taken.result htaken)) ?_
      rw [targetFits_iff hs hu]
      rintro ⟨-, remain, hremain, -⟩
      rw [hr] at hremain
      cases hremain
    | some remain =>
      have hfits : TargetFits ja u v ↔
          if (ja.drop u).length < (v.needs (ja.drop u).length).length then
            remain < (v.needs (ja.drop u).length).length ∨
              allRead (v.needs (ja.drop u).length) (ja.drop u) = false
          else 1 ≤ remain ∧ (v.needs (ja.drop u).length).length ≤ remain := by
        simp [targetFits_iff hs hu, hseq, hr]
      have htaken : readJarrElems ja (u - 1) s v = _ :=
        readJarrElems_eq hseq hr (ja.drop u).length
      rw [← visitAt_taken, @readEach_spec J ja u _ hu] at htaken
      rw [hfits]
      by_cases hfew : remain < 1 ∨ remain < (v.needs (ja.drop u).length).length
      · rw [if_pos hfew] at htaken
        rw [documented_of_none hresized htaken, hneeds, visitAt_left]
        split_ifs with hshort
        · exact iff_of_true hshort (.inl (by omega))
        · exact iff_of_false hshort (by omega)
      · rw [if_neg hfew] at htaken
        by_cases hout : (ja.drop u).length < (v.needs (ja.drop u).length).length ∧
            allRead (v.needs (ja.drop u).length) (ja.drop u) = true
        · -- the reads go on past the end of the array
          rw [if_pos hout] at htaken
          refine iff_of_false (not_documented_of_error (congrArg Taken.result htaken)) ?_
          rw [if_pos hout.1, hout.2]
          rintro (h | h)
          · exact hfew (.inr h)
          · cases h
        · rw [if_neg hout] at htaken
          rw [documented_of_reads hresized (hat.symm ▸ hu)
            (by rw [htaken, hneeds, visitAt_left, hat]), hneeds, visitAt_left]
          split_ifs with hshort
          · rw [imp_iff_right hshort, or_iff_right fun h => hfew (.inr h)]
          · exact iff_of_true (fun h => absurd h hshort) (by omega)
  · obtain ⟨read, rfl⟩ : ∃ read, v = .seq read := by
      cases v with
      | seq read => exact ⟨read, rfl⟩
      | _ => exact absurd rfl hseq
    exact iff_of_false (not_documented_seq hs hu) fun h => hseq h.1

/-- A documented call that succeeds has used what its target needs. -/
theorem documented_true (h : (visitAt ja s u v).Documented ja) :
    (visitAt ja s u v).taken.result = .ok true ↔
      (v.needs (ja.drop u).length).length ≤ (ja.drop u).length ∧
        allRead (v.needs (ja.drop u).length) (ja.drop u) = true := by
  have hneeds := @visitAt_needs J ja u v s
  by_cases hle : (v.needs (ja.drop u).length).length ≤ (ja.drop u).length
  · rw [(h.takes (by rwa [hneeds, visitAt_left])).2, hneeds, visitAt_left, Except.ok.injEq,
      and_iff_right hle]
  · rw [h.short (by rw [hneeds, visitAt_left]; omega)]
    exact iff_of_false (by simp) fun hc => hle hc.1

theorem length_reads (h : (visitAt ja s u v).Documented ja)
    (htrue : (visitAt ja s u v).taken.result = .ok true) :
    (visitAt ja s u v).taken.reads.length = (v.needs (ja.drop u).length).length := by
  obtain ⟨hle, hall⟩ := (documented_true h).1 htrue
  rw [(h.takes (by rwa [visitAt_needs, visitAt_left])).1, length_indices, visitAt_needs,
    visitAt_left, tried_of_allRead hall hle]

/-- The calls from `u` used elements on. -/
def runFrom (ja : List J) (s : ℤ) (u : ℕ) (vs : List (Target J)) :
    List (Visit J) × Except Fault Bool :=
  readJarrFrom ja s (u - 1) vs

theorem runFrom_cons_true (h : (visitAt ja s u v).taken.result = .ok true) :
    runFrom ja s u (v :: vs) =
      (visitAt ja s u v :: (runFrom ja s (u + (visitAt ja s u v).taken.reads.length) vs).1,
        (runFrom ja s (u + (visitAt ja s u v).taken.reads.length) vs).2) := by
  rw [visitAt_taken] at h ⊢
  have hnext : ∀ n : ℕ, (u : ℤ) - 1 + n = ((u + n : ℕ) : ℤ) - 1 := fun n => by omega
  simp only [runFrom, readJarrFrom, h, hnext, visitAt]

theorem runFrom_cons_of_ne (h : (visitAt ja s u v).taken.result ≠ .ok true) :
    runFrom ja s u (v :: vs) = ([visitAt ja s u v], (visitAt ja s u v).taken.result) := by
  rw [visitAt_taken] at h ⊢
  simp only [runFrom, readJarrFrom, visitAt]

theorem visits_documented_iff (hs : IsSize ja s) (hu : u ≤ ja.length) :
    (∀ e ∈ (runFrom ja s u vs).1, e.Documented ja) ↔ TargetsFit ja u vs := by
  induction vs generalizing u with
  | nil => exact iff_of_true (fun e he => absurd he List.not_mem_nil) trivial
  | cons v vs ih =>
    rw [TargetsFit, ← documented_iff hs hu]
    by_cases htrue : (visitAt ja s u v).taken.result = .ok true
    · rw [runFrom_cons_true htrue, List.forall_mem_cons]
      apply and_congr_right
      intro hdoc
      obtain ⟨hle, hall⟩ := (documented_true hdoc).1 htrue
      have hdrop : (ja.drop u).length = ja.length - u := List.length_drop
      rw [length_reads hdoc htrue, ih (by omega), imp_iff_right hle, imp_iff_right hall]
    · rw [runFrom_cons_of_ne htrue, List.forall_mem_singleton]
      refine (and_iff_left_of_imp fun hdoc hle hall => ?_).symm
      exact absurd ((documented_true hdoc).2 ⟨hle, hall⟩) htrue

/-- Only the last call can fail, and then the result is its. -/
theorem result_of_mem {e : Visit J} (he : e ∈ (runFrom ja s u vs).1) :
    e.taken.result = .ok true ∨ (runFrom ja s u vs).2 = e.taken.result := by
  induction vs generalizing u with
  | nil => exact absurd he List.not_mem_nil
  | cons v vs ih =>
    by_cases htrue : (visitAt ja s u v).taken.result = .ok true
    · rw [runFrom_cons_true htrue] at he ⊢
      obtain rfl | he := List.mem_cons.1 he
      · exact .inl htrue
      · exact ih he
    · rw [runFrom_cons_of_ne htrue] at he ⊢
      rw [List.mem_singleton.1 he]
      exact .inr rfl

/-- `read_jarr` uses the elements as documented exactly if every target that it reaches is one that
the count of the remaining elements does no harm to. -/
theorem read_jarr_iff (ja : JArr J) (vs : List (Target J)) :
    ReadsAsDocumented ja vs ↔ TargetsFit ja.elems 0 vs := by
  have hs := isSize_jarrSize ja.size_lt
  have hrun : readJarr ja vs = runFrom ja.elems (jarrSize ja.elems) 0 vs := rfl
  rw [← visits_documented_iff hs (Nat.zero_le _), ← hrun]
  refine ⟨fun h => h.visits, fun h => ⟨h, ?_⟩⟩
  rintro ⟨e, he, hshort⟩
  have hfalse := (h e he).short hshort
  rw [hrun] at he ⊢
  obtain htrue | hresult := result_of_mem he
  · rw [hfalse] at htrue
    cases htrue
  · rw [hresult, hfalse]

/-- A primitive is read from an empty array. -/
theorem not_readsAsDocumented_nil :
    ¬ReadsAsDocumented (⟨[], by decide⟩ : JArr Unit) [.prim fun _ => true] := by
  intro h
  have hread : (⟨.prim fun _ => true, -1, ⟨[0], none, .error (.index 0)⟩⟩ : Visit Unit) ∈
      (readJarr (⟨[], by decide⟩ : JArr Unit) [.prim fun _ => true]).1 := List.mem_singleton_self _
  have hinside := (h.visits _ hread).inside 0 (List.mem_singleton_self _)
  simp at hinside

end Jkl.Json
