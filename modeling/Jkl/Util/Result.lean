import Jkl.Lib.Ledger
import Jkl.Lib.Run

/-! `aresult<V>`: an error code and a union with the value. The code alone tells whether the
union holds a `V`: nothing else records its lifetime. -/
namespace Jkl.Result

variable {ε V : Type*}

/-- The error code, `none` when it holds no error, and the `V` that lives in the union: which
construction it comes from, and its content. -/
structure Aresult (ε V : Type*) where
  ec : Option ε
  v : Option (ℕ × V)

def Aresult.hasValue (a : Aresult ε V) : Bool := a.ec.isNone

/-- All results by address, the number of `V`s constructed, the ones destroyed in order, and
whether a member of `V` ever ran on storage without a `V`. -/
structure Store (ε V : Type*) where
  objs : ℕ → Option (Aresult ε V)
  next : ℕ
  destroyed : List ℕ
  misused : Bool

/-- `throws` tells whether the member of `V` that runs in the operation throws. -/
inductive Op (ε V : Type*) where
  | fromError (i : ℕ) (e : Option ε)
  | fromValue (i : ℕ) (u : V) (throws : Bool)
  | fromErrorArgs (i : ℕ) (e : Option ε) (u : V) (throws : Bool)
  | copyConstruct (i j : ℕ) (throws : Bool)
  | moveConstruct (i j : ℕ) (throws : Bool)
  | copyAssign (i j : ℕ) (throws : Bool)
  | moveAssign (i j : ℕ) (throws : Bool)
  | destroy (i : ℕ)

namespace Store

def init : Store ε V := ⟨fun _ => none, 0, [], false⟩

def put (w : Store ε V) (i : ℕ) (a : Option (Aresult ε V)) : Store ε V :=
  { w with objs := Function.update w.objs i a }

def misuse (w : Store ε V) : Store ε V := { w with misused := true }

/-- `construct_at(&_v, u)` in a new object with the error code `ec`; an exception leaves no
object behind. -/
def constructAt (w : Store ε V) (i : ℕ) (ec : Option ε) (u : V) (throws : Bool) : Store ε V :=
  if throws then w
  else { w.put i (some ⟨ec, some (w.next, u)⟩) with next := w.next + 1 }

def fromError (w : Store ε V) (i : ℕ) (e : Option ε) : Store ε V :=
  -- throws when there is no error
  if e.isSome then w.put i (some ⟨e, none⟩) else w

def fromErrorArgs (w : Store ε V) (i : ℕ) (e : Option ε) (u : V) (throws : Bool) : Store ε V :=
  if e.isNone then w.constructAt i e u throws else w.put i (some ⟨e, none⟩)

/-- The copy and the move constructor. -/
def constructFrom (w : Store ε V) (i : ℕ) (r : Aresult ε V) (throws : Bool) : Store ε V :=
  if r.hasValue then
    match r.v with
    | some (_, x) => w.constructAt i r.ec x throws
    | none => (w.put i (some ⟨r.ec, none⟩)).misuse
  else w.put i (some ⟨r.ec, none⟩)

/-- The copy and the move assignment. -/
def assignFrom (w : Store ε V) (i : ℕ) (a r : Aresult ε V) (throws : Bool) : Store ε V :=
  -- the base goes first: from here on the target has the error code of the source
  let a := { a with ec := r.ec }
  if r.hasValue then
    match a.v, r.v with
    | some (n, y), some (_, x) => w.put i (some { a with v := some (n, if throws then y else x) })
    | _, _ => (w.put i (some a)).misuse
  else w.put i (some a)

/-- What a move leaves in its source. -/
def moveFrom (w : Store ε V) (moved : V → V) (j : ℕ) (r : Aresult ε V) : Store ε V :=
  if r.hasValue then w.put j (some { r with v := r.v.map fun p => (p.1, moved p.2) }) else w

/-- The destructor. A trivially destructible `V` ends with the storage it lives in. -/
def destroy (w : Store ε V) (trivialDtor : Bool) (i : ℕ) (a : Aresult ε V) : Store ε V :=
  let ended := (a.v.map Prod.fst).toList
  let w := w.put i none
  if trivialDtor then { w with destroyed := w.destroyed ++ ended }
  else if a.hasValue then
    if a.v.isSome then { w with destroyed := w.destroyed ++ ended } else w.misuse
  else w

def step (trivialDtor : Bool) (moved : V → V) (w : Store ε V) : Op ε V → Option (Store ε V)
  | .fromError i e =>
    match w.objs i with
    | none => some (w.fromError i e)
    | some _ => none
  | .fromValue i u throws =>
    match w.objs i with
    | none => some (w.constructAt i none u throws)
    | some _ => none
  | .fromErrorArgs i e u throws =>
    match w.objs i with
    | none => some (w.fromErrorArgs i e u throws)
    | some _ => none
  | .copyConstruct i j throws =>
    match w.objs i, w.objs j with
    | none, some r => some (w.constructFrom i r throws)
    | _, _ => none
  | .moveConstruct i j throws =>
    match w.objs i, w.objs j with
    | none, some r => some ((w.moveFrom moved j r).constructFrom i r throws)
    | _, _ => none
  | .copyAssign i j throws =>
    match w.objs i, w.objs j with
    | some a, some r => some (w.assignFrom i a r throws)
    | _, _ => none
  | .moveAssign i j throws =>
    match w.objs i, w.objs j with
    | some a, some r => some ((w.moveFrom moved j r).assignFrom i a r throws)
    | _, _ => none
  | .destroy i =>
    match w.objs i with
    | none => none
    | some a => some (w.destroy trivialDtor i a)

/-- Which `V` lives in the result at `i`. -/
def payload (w : Store ε V) (i : ℕ) : Option ℕ := ((w.objs i).bind Aresult.v).map Prod.fst

def ledger (w : Store ε V) : Ledger ℕ := ⟨w.payload, w.next, [], w.destroyed⟩

/-- A result holds a `V` when it has no error, and every `V` is in one result until it is
destroyed, once. -/
structure InStep (w : Store ε V) : Prop where
  synced : ∀ i a, w.objs i = some a → (a.v.isSome ↔ a.ec = none)
  unmisused : w.misused = false
  one : ∀ n < w.next, n ∉ w.destroyed → ∃! i, w.payload i = some n
  once : w.destroyed.Nodup
  dead : ∀ i n, w.payload i = some n → n ∉ w.destroyed

/-- An assignment between a result with an error and one without. -/
def Mixes (w : Store ε V) : Op ε V → Prop
  | .copyAssign i j _ | .moveAssign i j _ =>
    ∃ a r, w.objs i = some a ∧ w.objs j = some r ∧ a.hasValue ≠ r.hasValue
  | _ => False

/-- The invariant. -/
structure Kept (w : Store ε V) : Prop where
  synced : ∀ i a, w.objs i = some a → (a.v.isSome ↔ a.ec = none)
  unmisused : w.misused = false
  balanced : w.ledger.Balanced

variable {trivialDtor throws : Bool} {moved : V → V} {w t : Store ε V} {e : Op ε V} {i j : ℕ}
  {a r : Aresult ε V} {ec : Option ε} {u : V}

theorem kept_init : Kept (init : Store ε V) :=
  ⟨by simp [init], rfl, Ledger.balanced_init⟩

@[simp] theorem payload_put (a : Option (Aresult ε V)) :
    (w.put i a).payload = Function.update w.payload i ((a.bind Aresult.v).map Prod.fst) := by
  funext k
  by_cases hk : k = i
  · subst hk; simp [payload, put]
  · simp [payload, put, hk]

theorem payload_of_objs (ho : w.objs i = some a) : w.payload i = a.v.map Prod.fst := by
  simp [payload, ho]

theorem payload_of_objs_none (ho : w.objs i = none) : w.payload i = none := by
  simp [payload, ho]

theorem isSome_v (h : a.v.isSome ↔ a.ec = none) : a.v.isSome = a.hasValue := by
  rw [Bool.eq_iff_iff, h, Aresult.hasValue, Option.isNone_iff_eq_none]

theorem synced_put {b : Option (Aresult ε V)} (hw : w.Kept)
    (hb : ∀ c, b = some c → (c.v.isSome ↔ c.ec = none)) :
    ∀ k c, (w.put i b).objs k = some c → (c.v.isSome ↔ c.ec = none) := by
  intro k c hc
  by_cases hk : k = i
  · subst hk
    exact hb c (by simpa [put] using hc)
  · exact hw.synced k c (by simpa [put, hk] using hc)

/-- A result is replaced by one with the same `V` in it. -/
theorem kept_put (hw : w.Kept) (hpay : a.v.map Prod.fst = w.payload i)
    (ha : a.v.isSome ↔ a.ec = none) : (w.put i (some a)).Kept where
  synced := synced_put hw (by rintro c ⟨⟩; exact ha)
  unmisused := hw.unmisused
  balanced := by
    have hsame : (w.put i (some a)).ledger = w.ledger := by
      simp only [ledger, payload_put, Option.bind_some, hpay, Function.update_eq_self]
      rfl
    exact hsame ▸ hw.balanced

theorem kept_constructAt (hw : w.Kept) (hi : w.objs i = none) (hec : ec = none) :
    (w.constructAt i ec u throws).Kept := by
  unfold constructAt
  split_ifs with hthrows
  · exact hw
  · refine ⟨synced_put hw (by rintro c ⟨⟩; simp [hec]), hw.unmisused, ?_⟩
    have hissue : ledger { w.put i (some ⟨ec, some (w.next, u)⟩) with next := w.next + 1 } =
        w.ledger.issue i := by
      have hpay : payload { w.put i (some ⟨ec, some (w.next, u)⟩) with next := w.next + 1 } =
          (w.put i (some ⟨ec, some (w.next, u)⟩)).payload := rfl
      simp only [ledger, hpay, payload_put]
      rfl
    exact hissue ▸ hw.balanced.issue (payload_of_objs_none hi)

theorem kept_put_error (hw : w.Kept) (hi : w.objs i = none) (hec : ec ≠ none) :
    (w.put i (some ⟨ec, none⟩)).Kept :=
  kept_put hw (payload_of_objs_none hi).symm (by simp [hec])

theorem kept_constructFrom (hw : w.Kept) (hi : w.objs i = none)
    (hr : r.v.isSome ↔ r.ec = none) : (w.constructFrom i r throws).Kept := by
  unfold constructFrom
  rw [← isSome_v hr]
  cases hv : r.v with
  | none =>
    have hec : r.ec ≠ none := by simpa [hv] using hr
    simpa using kept_put_error hw hi hec
  | some p =>
    have hec : r.ec = none := by simpa [hv] using hr
    simpa using kept_constructAt hw hi hec

theorem kept_moveFrom (moved : V → V) (hw : w.Kept) (hj : w.objs j = some r) :
    (w.moveFrom moved j r).Kept := by
  unfold moveFrom
  split_ifs with hval
  · refine kept_put hw ?_ ?_
    · rw [payload_of_objs hj, Option.map_map]
      rfl
    · simpa using hw.synced j r hj
  · exact hw

theorem payload_moveFrom (hj : w.objs j = some r) :
    (w.moveFrom moved j r).payload = w.payload := by
  unfold moveFrom
  split_ifs with hval
  · simp only [payload_put, Option.bind_some, Option.map_map]
    exact (Function.update_eq_self_iff).2 (payload_of_objs hj).symm
  · rfl

theorem kept_assignFrom (hw : w.Kept) (hpay : w.payload i = a.v.map Prod.fst)
    (ha : a.v.isSome ↔ a.ec = none) (hr : r.v.isSome ↔ r.ec = none)
    (hsame : a.hasValue = r.hasValue) : (w.assignFrom i a r throws).Kept := by
  unfold assignFrom
  dsimp only
  rw [← isSome_v hr]
  have hboth : a.v.isSome = r.v.isSome := by rw [isSome_v ha, isSome_v hr, hsame]
  cases hv : r.v with
  | none =>
    have hec : r.ec ≠ none := by simpa [hv] using hr
    have hnone : a.v = none := by simpa [hv] using hboth
    exact kept_put hw hpay.symm (by simp [hnone, hec])
  | some p =>
    have hec : r.ec = none := by simpa [hv] using hr
    obtain ⟨q, hq⟩ := Option.isSome_iff_exists.1 (hboth.trans (by simp [hv]))
    simp only [hq, Option.isSome_some, if_true]
    exact kept_put hw (by simp [hpay, hq]) (by simp [hec])

theorem kept_destroy (hw : w.Kept) (hi : w.objs i = some a) :
    (w.destroy trivialDtor i a).Kept := by
  have hsync := hw.synced i a hi
  have hcases : w.destroy trivialDtor i a =
      { w.put i none with destroyed := w.destroyed ++ (a.v.map Prod.fst).toList } := by
    unfold destroy
    rw [← isSome_v hsync]
    cases hv : a.v <;> simp [put]
  rw [hcases]
  refine ⟨synced_put hw nofun, hw.unmisused, ?_⟩
  rw [← payload_of_objs hi]
  have hpay : payload { w.put i none with destroyed := w.destroyed ++ (w.payload i).toList } =
      Function.update w.payload i none := payload_put none
  have hspend : ledger { w.put i none with destroyed := w.destroyed ++ (w.payload i).toList } =
      w.ledger.spend i := by
    simp only [ledger, hpay]
    rfl
  exact hspend ▸ hw.balanced.spend i

theorem objs_moveFrom_of_ne (hij : i ≠ j) : (w.moveFrom moved j r).objs i = w.objs i := by
  unfold moveFrom
  split_ifs with hval
  · simp [put, hij]
  · rfl

theorem kept_step (hw : w.Kept) (hs : step trivialDtor moved w e = some t)
    (hm : ¬ w.Mixes e) : t.Kept := by
  cases e with
  | fromError i e =>
    simp only [step] at hs
    split at hs <;> cases hs
    next hi =>
      unfold fromError
      split_ifs with he
      · exact kept_put_error hw hi (by simpa [Option.isSome_iff_ne_none] using he)
      · exact hw
  | fromValue i u throws =>
    simp only [step] at hs
    split at hs <;> cases hs
    next hi => exact kept_constructAt hw hi rfl
  | fromErrorArgs i e u throws =>
    simp only [step] at hs
    split at hs <;> cases hs
    next hi =>
      unfold fromErrorArgs
      split_ifs with he
      · exact kept_constructAt hw hi (Option.isNone_iff_eq_none.1 he)
      · exact kept_put_error hw hi (by simpa using he)
  | copyConstruct i j throws =>
    simp only [step] at hs
    split at hs <;> cases hs
    next r hi hj => exact kept_constructFrom hw hi (hw.synced j r hj)
  | moveConstruct i j throws =>
    simp only [step] at hs
    split at hs <;> cases hs
    next r hi hj =>
      have hij : i ≠ j := by rintro rfl; simp [hi] at hj
      exact kept_constructFrom (kept_moveFrom moved hw hj)
        ((objs_moveFrom_of_ne hij).trans hi) (hw.synced j r hj)
  | copyAssign i j throws =>
    simp only [step] at hs
    split at hs <;> cases hs
    next a r hi hj =>
      have hsame : a.hasValue = r.hasValue := not_not.1 fun h => hm ⟨a, r, hi, hj, h⟩
      exact kept_assignFrom hw (payload_of_objs hi) (hw.synced i a hi) (hw.synced j r hj) hsame
  | moveAssign i j throws =>
    simp only [step] at hs
    split at hs <;> cases hs
    next a r hi hj =>
      have hsame : a.hasValue = r.hasValue := not_not.1 fun h => hm ⟨a, r, hi, hj, h⟩
      have hpay : (w.moveFrom moved j r).payload i = a.v.map Prod.fst := by
        rw [payload_moveFrom hj, payload_of_objs hi]
      exact kept_assignFrom (kept_moveFrom moved hw hj) hpay (hw.synced i a hi)
        (hw.synced j r hj) hsame
  | destroy i =>
    simp only [step] at hs
    split at hs <;> cases hs
    next a hi => exact kept_destroy hw hi

theorem inStep_of_kept (hw : w.Kept) : w.InStep where
  synced := hw.synced
  unmisused := hw.unmisused
  one := by
    intro n hlt hdead
    rcases (hw.balanced.total n).1 hlt with ⟨i, hi⟩ | hout | hgone
    · exact ⟨i, hi, fun k hk => hw.balanced.single k i n hk hi⟩
    · cases hout
    · exact absurd hgone hdead
  once := (List.nodup_append.1 hw.balanced.nodup).2.1
  dead := fun i n hi => (hw.balanced.apart i n hi).2

/-- An assignment of a value to an error runs on raw storage; one of an error to a value leaves
the value behind. -/
theorem not_inStep_assignFrom (ha : a.v.isSome ↔ a.ec = none)
    (hmix : a.hasValue ≠ r.hasValue) : ¬ (w.assignFrom i a r throws).InStep := by
  intro hgood
  unfold assignFrom at hgood
  dsimp only at hgood
  have hav := isSome_v ha
  cases hval : r.hasValue with
  | true =>
    have hnone : a.v = none := by
      rw [hval, ne_eq, Bool.not_eq_true] at hmix
      rw [hmix] at hav
      simpa using hav
    have := hgood.unmisused
    simp [hval, hnone, misuse] at this
  | false =>
    have hsome : a.v.isSome = true := by
      rw [hval, ne_eq, Bool.not_eq_false] at hmix
      rw [hav, hmix]
    have hec : r.ec ≠ none := by
      rintro hnone
      simp [Aresult.hasValue, hnone] at hval
    have := hgood.synced i { a with ec := r.ec } (by simp [hval, put])
    exact hec (this.1 hsome)

theorem not_inStep_step (hw : w.Kept) (hs : step trivialDtor moved w e = some t)
    (hm : w.Mixes e) : ¬ t.InStep := by
  cases e with
  | copyAssign i j throws =>
    obtain ⟨a, r, hi, hj, hmix⟩ := hm
    simp only [step, hi, hj, Option.some.injEq] at hs
    exact hs ▸ not_inStep_assignFrom (hw.synced i a hi) hmix
  | moveAssign i j throws =>
    obtain ⟨a, r, hi, hj, hmix⟩ := hm
    simp only [step, hi, hj, Option.some.injEq] at hs
    exact hs ▸ not_inStep_assignFrom (hw.synced i a hi) hmix
  | _ => exact hm.elim

/-- Payloads and errors stay in step in exactly the runs without an assignment between a result
with an error and one without. -/
theorem each_inStep_iff (trivialDtor : Bool) (moved : V → V) (es : List (Op ε V)) :
    Steps.Each (step trivialDtor moved) (fun _ _ t => t.InStep) init es ↔
      Steps.Each (step trivialDtor moved) (fun w e _ => ¬ w.Mixes e) init es := by
  refine Steps.each_iff_each (I := Kept) ?_ ?_ kept_init
  · intro w e t hw hs
    constructor
    · intro hgood hm
      exact not_inStep_step hw hs hm hgood
    · intro hm
      exact inStep_of_kept (kept_step hw hs hm)
  · intro w e t hw hs hm
    exact kept_step hw hs hm

/-- An error assigned from a value: `V`'s assignment runs on storage without a `V`. -/
theorem not_each_inStep : ¬ Steps.Each (step false id) (fun _ _ t => t.InStep)
    (init : Store Unit Unit)
    [.fromError 0 (some ()), .fromValue 1 () false, .copyAssign 0 1 false] := by
  intro h
  obtain ⟨-, h⟩ := h _ rfl
  obtain ⟨-, h⟩ := h _ rfl
  obtain ⟨hgood, -⟩ := h _ rfl
  exact absurd hgood.unmisused (by decide)

end Store

end Jkl.Result
