import Jkl.Pb.Bounds
import Mathlib.Data.List.Forall2

/-! Two readings of one input in step, on two machines and into two targets. They agree until the
second machine stops where the first goes on. -/
namespace Jkl.Pb

/-- A result without its value. -/
inductive Shape where
  | ok
  | err (e : PbErr)
  | stop (s : Stop)

def Res.shape {α β : Type} : Res (PbErr × α) β → Shape
  | .ok .. => .ok
  | .err (e, _) => .err e
  | .stop s => .stop s

/-- What a machine that does not trap an event can come to right after it. -/
def Machine.After (m : Machine) : Event → Shape → Prop
  | .overrun, x => m.segmented = true → x = .stop .fault
  | .shortRun, x | .checkMismatch, x => x = .err .tagMismatch
  | _, _ => True

/-- The second machine stops wherever the first does, and in `ends` where the first may go on to
anything in `bad`. Without `sameTarget` the two targets may differ. -/
structure Sim (m₁ m₂ : Machine) where
  sameTarget : Prop
  bad : Shape → Prop
  ends : Stop → Prop
  le : ∀ e, m₁.traps e = true → m₂.traps e = true
  site : ∀ e x, m₁.traps e = false → m₂.traps e = true → m₁.After e x → ends (.trap e) ∧ bad x
  free : bad .ok → ∀ x, bad x
  swallowed : bad (.err .tagMismatch) →
    (∀ x, bad x) ∨ m₁.traps .swallow = true ∧ bad (.stop (.trap .swallow))
  memory : m₁.segmented = m₂.segmented ∨ m₂.traps .overrun = true
  stale : sameTarget ∨ m₂.traps .staleCheck = true

/-- The same outcome, up to `A` on values and `E` on what a failed read leaves behind. -/
inductive Agree {α β : Type} (A : α → α → Prop) (E : β → β → Prop) :
    Res (PbErr × β) α → Res (PbErr × β) α → Prop where
  | ok {n : ℕ} {a a' : α} (h : A a a') : Agree A E (.ok n a) (.ok n a')
  | err {e : PbErr} {b b' : β} (h : E b b') : Agree A E (.err (e, b)) (.err (e, b'))
  | stop {s : Stop} : Agree A E (.stop s) (.stop s)

namespace Sim

variable {m₁ m₂ : Machine} (S : Sim m₁ m₂) {α β : Type} {A : α → α → Prop} {E : β → β → Prop}
  {r₁ r₂ : Res (PbErr × β) α}

def Rel (A : α → α → Prop) (E : β → β → Prop) (r₁ r₂ : Res (PbErr × β) α) : Prop :=
  Agree A E r₁ r₂ ∨ S.bad r₁.shape ∧ ∃ s, r₂ = .stop s ∧ S.ends s

/-- The memory of the two machines: nothing past the limit counts where one of them is
segmented. -/
structure Mem (m₁ m₂ : Machine) (mem₁ mem₂ : List UInt8) (lim : ℕ) : Prop where
  take : mem₁.take lim = mem₂.take lim
  same : m₁.segmented = m₂.segmented → mem₁ = mem₂
  short : m₁.segmented = true → mem₁.length ≤ lim

/-- Readers that keep step. What a failed read leaves behind is the same if the targets were. -/
def Readers (read₁ read₂ : Reader) : Prop :=
  ∀ ⦃mem₁ mem₂ lim u₁ u₂⦄, Mem m₁ m₂ mem₁ mem₂ lim → (S.sameTarget → u₁ = u₂) →
    S.Rel (· = ·) (fun v₁ v₂ => u₁ = u₂ → v₁ = v₂) (read₁ mem₁ lim u₁) (read₂ mem₂ lim u₂)

variable {S}

theorem Mem.drop {mem₁ mem₂ : List UInt8} {lim : ℕ} (h : Mem m₁ m₂ mem₁ mem₂ lim) (k : ℕ) :
    Mem m₁ m₂ (mem₁.drop k) (mem₂.drop k) (lim - k) := by
  constructor
  · rw [← List.drop_take, ← List.drop_take, h.take]
  · intro hs
    rw [h.same hs]
  · intro hs
    have := h.short hs
    simp only [List.length_drop]
    omega

theorem take_drop_of_take {mem₁ mem₂ : List UInt8} {lim k len : ℕ}
    (h : mem₁.take lim = mem₂.take lim) (hle : k + len ≤ lim) :
    (mem₁.drop k).take len = (mem₂.drop k).take len := by
  have h₁ : ∀ mem : List UInt8, (mem.drop k).take len = ((mem.take lim).drop k).take len := by
    intro mem
    rw [List.drop_take, List.take_take, min_eq_left (by omega)]
  rw [h₁ mem₁, h₁ mem₂, h]

theorem Mem.region {mem₁ mem₂ : List UInt8} {lim k len : ℕ} (h : Mem m₁ m₂ mem₁ mem₂ lim)
    (hle : k + len ≤ lim) :
    Mem m₁ m₂ (m₁.region (mem₁.drop k) len) (m₂.region (mem₂.drop k) len) len := by
  have ht := take_drop_of_take h.take hle
  have hr : ∀ (m : Machine) (mem : List UInt8), (m.region mem len).take len = mem.take len := by
    intro m mem
    unfold Machine.region
    split_ifs
    · rw [List.take_take, min_self]
    · rfl
  constructor
  · rw [hr, hr, ht]
  · intro hs
    rw [h.same hs]
    simp only [Machine.region, hs]
  · intro hs
    simp [Machine.region, hs]

theorem Mem.load {mem₁ mem₂ : List UInt8} {lim k len : ℕ} (h : Mem m₁ m₂ mem₁ mem₂ lim)
    (hle : k + len ≤ lim) : load len (mem₁.drop k) = load len (mem₂.drop k) := by
  have ht := take_drop_of_take h.take hle
  have hl := congrArg List.length ht
  simp only [List.length_take] at hl
  unfold Jkl.Pb.load
  rw [ht]
  congr 1
  simp only [eq_iff_iff]
  omega

theorem Mem.varint {mem₁ mem₂ : List UInt8} {lim : ℕ} (h : Mem m₁ m₂ mem₁ mem₂ lim) (bits : ℕ) :
    readVarintUint bits mem₁ lim = readVarintUint bits mem₂ lim := by
  rw [← readVarintUint_take bits mem₁, ← readVarintUint_take bits mem₂, h.take]

theorem rel_check {e : Event} {b : Bool}
    (h : ¬(b = true ∧ m₂.traps e = true) → S.Rel A E r₁ r₂)
    (hsite : b = true → m₁.After e r₁.shape) : S.Rel A E (m₁.check e b r₁) (m₂.check e b r₂) := by
  unfold Machine.check
  by_cases hb : b = true
  · cases h₁ : m₁.traps e with
    | true =>
      simp only [S.le e h₁, hb, Bool.and_self, if_true]
      exact Or.inl .stop
    | false =>
      cases h₂ : m₂.traps e with
      | true =>
        have hs := S.site e r₁.shape h₁ h₂ (hsite hb)
        simp only [hb, Bool.and_self, if_true, Bool.false_and, Bool.false_eq_true, if_false]
        exact Or.inr ⟨hs.2, _, rfl, hs.1⟩
      | false =>
        simp only [Bool.false_and, Bool.false_eq_true, if_false]
        exact h (by simp [h₂])
  · simp only [hb, Bool.and_false, Bool.false_eq_true, if_false]
    exact h (by simp [hb])

theorem rel_advance (h : S.Rel A E r₁ r₂) (k : ℕ) : S.Rel A E (r₁.advance k) (r₂.advance k) := by
  rcases h with h | ⟨hb, s, rfl, hs⟩
  · cases h with
    | ok h => exact Or.inl (.ok h)
    | err h => exact Or.inl (.err h)
    | stop => exact Or.inl .stop
  · refine Or.inr ⟨?_, s, rfl, hs⟩
    cases r₁ <;> exact hb

theorem rel_andThen {γ : Type} {p : Scan γ} {v₁ v₂ u₁ u₂ : Val} {k₁ k₂ : ℕ → γ → Rd}
    (hv : u₁ = u₂ → v₁ = v₂)
    (hk : ∀ n a, p = .ok n a → S.Rel (· = ·) (fun v₁ v₂ => u₁ = u₂ → v₁ = v₂) (k₁ n a) (k₂ n a)) :
    S.Rel (· = ·) (fun v₁ v₂ => u₁ = u₂ → v₁ = v₂) (p.andThen v₁ k₁) (p.andThen v₂ k₂) := by
  cases p with
  | ok n a => exact hk n a rfl
  | err e => exact Or.inl (.err hv)
  | stop s => exact Or.inl .stop

theorem Mem.head {mem₁ mem₂ : List UInt8} {lim : ℕ} (h : Mem m₁ m₂ mem₁ mem₂ lim) (hl : 0 < lim) :
    mem₁.head? = mem₂.head? := by
  have ht := congrArg List.head? h.take
  have hh : ∀ mem : List UInt8, (mem.take lim).head? = mem.head? := by
    intro mem
    obtain ⟨k, rfl⟩ : ∃ k, lim = k + 1 := ⟨lim - 1, by omega⟩
    cases mem <;> rfl
  rwa [hh, hh] at ht

theorem Mem.readVarint {mem₁ mem₂ : List UInt8} {lim : ℕ} (h : Mem m₁ m₂ mem₁ mem₂ lim)
    (zigzag : Bool) (c : CInt) :
    readVarint zigzag c mem₁ lim = readVarint zigzag c mem₂ lim := by
  rw [← readVarint_take zigzag c mem₁, ← readVarint_take zigzag c mem₂, h.take]

theorem Mem.startsWith {mem₁ mem₂ : List UInt8} {lim : ℕ} (h : Mem m₁ m₂ mem₁ mem₂ lim) (u : ℕ) :
    startsWithVarintBytes u mem₁ lim = startsWithVarintBytes u mem₂ lim := by
  unfold startsWithVarintBytes
  by_cases hl : (varintBytes u).length < lim
  · have ht := take_drop_of_take h.take
      (by omega : 0 + (varintBytes u).length ≤ lim)
    simp only [List.drop_zero] at ht
    rw [ht]
  · simp [hl]

theorem Mem.examTag {mem₁ mem₂ : List UInt8} {lim : ℕ} (h : Mem m₁ m₂ mem₁ mem₂ lim) (elem : Fld)
    (first : Bool) : examTag elem first mem₁ lim = examTag elem first mem₂ lim := by
  unfold Jkl.Pb.examTag
  rw [h.startsWith]

theorem varintRead_sim (ty : VarintTy) (c : CInt) (p : Params) :
    S.Readers (varintRead m₁ ty c p) (varintRead m₂ ty c p) := by
  intro mem₁ mem₂ lim u₁ u₂ hm _
  simp only [varintRead]
  rw [hm.readVarint]
  apply rel_andThen id
  intro n t ht
  have hhead : (ty.tar = .bool && mem₁.head?.any fun b => 0x80 ≤ b) =
      (ty.tar = .bool && mem₂.head?.any fun b => 0x80 ≤ b) := by
    by_cases hb : ty.tar = .bool
    · have hl : 0 < lim := by
        by_contra hl
        simp [readVarint, hb, hl] at ht
      rw [hm.head hl]
    · simp [hb]
  rw [hhead]
  exact rel_check (fun _ => Or.inl (.ok rfl)) (fun _ => trivial)

theorem fixedRead_sim (ty : FixedTy) (c : CInt) (p : Params) :
    S.Readers (fixedRead ty c p) (fixedRead ty c p) := by
  intro mem₁ mem₂ lim u₁ u₂ hm _
  unfold fixedRead
  split_ifs with hl
  · have hload := hm.load (k := 0) (by omega : 0 + ty.size ≤ lim)
    simp only [List.drop_zero] at hload
    rw [hload]
    cases load ty.size mem₂ with
    | none => exact Or.inl .stop
    | some bs => exact Or.inl (.ok rfl)
  · exact Or.inl (.err id)

theorem bytesRead_sim (b : Buf) (p : Params) : S.Readers (bytesRead m₁ b p) (bytesRead m₂ b p) := by
  intro mem₁ mem₂ lim u₁ u₂ hm _
  simp only [bytesRead]
  rw [hm.varint]
  apply rel_andThen id
  intro k len hk
  have hlim := (readVarintUint_le hk).2.1
  by_cases hfit : b.accepts len = true
  · rw [if_pos hfit, if_pos hfit]
    apply rel_check
    · intro htrap
      have hload : load len (mem₁.drop k) = load len (mem₂.drop k) := by
        by_cases hover : lim < k + len
        · have hseg : m₁.segmented = m₂.segmented := by
            rcases S.memory with h | h
            · exact h
            · exact absurd ⟨by simpa using hover, h⟩ htrap
          rw [hm.same hseg]
        · exact hm.load (by omega)
      rw [hload]
      cases load len (mem₂.drop k) with
      | none => exact Or.inl .stop
      | some bs => exact Or.inl (.ok rfl)
    · intro hover hseg
      have hshort := hm.short hseg
      have hover : lim < k + len := by simpa using hover
      have hnone : load len (mem₁.drop k) = none := by
        unfold load
        rw [if_neg (by simp only [List.length_drop]; omega)]
      rw [hnone]
      rfl
  · rw [if_neg hfit, if_neg hfit]
    apply Or.inl
    apply Agree.err
    intro hu
    rw [hu]

theorem Rel.mono {E' : β → β → Prop} (h : S.Rel A E r₁ r₂) (hE : ∀ b b', E b b' → E' b b') :
    S.Rel A E' r₁ r₂ := by
  rcases h with h | h
  · cases h with
    | ok h => exact Or.inl (.ok h)
    | err h => exact Or.inl (.err (hE _ _ h))
    | stop => exact Or.inl .stop
  · exact Or.inr h

/-- Two turns in step, the second of which may stop where the first goes on. -/
inductive Turns (S : Sim m₁ m₂) {σ : Type} (R : σ → σ → Prop) (A : α → α → Prop)
    (E : β → β → Prop) :
    Loop.Turn σ (Res (PbErr × β) α) → Loop.Turn σ (Res (PbErr × β) α) → Prop where
  | next {s t : σ} (h : R s t) : Turns S R A E (.next s) (.next t)
  | done {r r' : Res (PbErr × β) α} (h : S.Rel A E r r') : Turns S R A E (.done r) (.done r')
  | early {turn : Loop.Turn σ (Res (PbErr × β) α)} {x : Stop} (hends : S.ends x)
      (hbad : ∀ y, S.bad y) : Turns S R A E turn (.done (.stop x))

theorem loop_rel {σ : Type} {step₁ step₂ : σ → Loop.Turn σ (Res (PbErr × β) α)}
    {R : σ → σ → Prop} (hstep : ∀ s t, R s t → S.Turns R A E (step₁ s) (step₂ t)) (lim : ℕ)
    {s t : σ} (h : R s t) : S.Rel A E (loop step₁ lim s) (loop step₂ lim t) := by
  apply Loop.run_related R (fun o o' => S.Rel A E (o.getD (.stop .fuel)) (o'.getD (.stop .fuel)))
  · exact Or.inl .stop
  · intro s t hst
    have hturn := hstep s t hst
    cases h₁ : step₁ s with
    | next s' =>
      cases h₂ : step₂ t with
      | next t' =>
        rw [h₁, h₂] at hturn
        cases hturn with
        | next h => exact Or.inl ⟨s', t', rfl, rfl, h⟩
      | done r' =>
        rw [h₁, h₂] at hturn
        cases hturn with
        | early hends hbad => exact Or.inr (Or.inr ⟨_, rfl, fun o => Or.inr ⟨hbad _, _, rfl, hends⟩⟩)
    | done r =>
      cases h₂ : step₂ t with
      | next t' =>
        rw [h₁, h₂] at hturn
        nomatch hturn
      | done r' =>
        rw [h₁, h₂] at hturn
        cases hturn with
        | done h => exact Or.inr (Or.inl ⟨_, _, rfl, rfl, h⟩)
        | early hends hbad => exact Or.inr (Or.inr ⟨_, rfl, fun o => Or.inr ⟨hbad _, _, rfl, hends⟩⟩)
  · exact h

/-- The runs of the elements are in step. -/
structure ElemsInStep (m₁ m₂ : Machine) (s t : ElemState) : Prop where
  lim : s.lim = t.lim
  n : s.n = t.n
  acc : s.acc = t.acc
  mem : Mem m₁ m₂ s.mem t.mem s.lim

theorem elemTurn_sim {read₁ read₂ : Reader} (h : S.Readers read₁ read₂) (elem : Fld) (c : Container)
    {s t : ElemState} (hst : ElemsInStep m₁ m₂ s t) :
    S.Turns (ElemsInStep m₁ m₂) (· = ·) (· = ·) (elemTurn elem c read₁ s) (elemTurn elem c read₂ t) := by
  obtain ⟨mem₁, lim, n, acc⟩ := s
  obtain ⟨mem₂, lim, n, acc⟩ := t
  obtain ⟨rfl, rfl, rfl, hm⟩ := hst
  unfold elemTurn
  rw [hm.examTag]
  by_cases hlim : lim = 0
  · simp only [hlim, if_true]
    exact .done (Or.inl (.ok rfl))
  simp only [hlim, if_false]
  generalize examTag elem acc.isEmpty mem₂ lim = k
  cases k with
  | none => exact .done (Or.inl (.ok rfl))
  | some k =>
    have hr := h (hm.drop k) (fun _ => (rfl : elem.freshVal = elem.freshVal))
    simp only at hr ⊢
    rcases hr with hr | ⟨hb, x, hx, hends⟩
    · generalize read₁ (mem₁.drop k) (lim - k) elem.freshVal = r₁ at hr ⊢
      generalize read₂ (mem₂.drop k) (lim - k) elem.freshVal = r₂ at hr ⊢
      cases hr with
      | @ok n' v v' hv =>
        subst hv
        exact .next ⟨rfl, rfl, rfl, hm.drop (k + n')⟩
      | err _ => exact .done (Or.inl (.err rfl))
      | stop => exact .done (Or.inl .stop)
    · rw [hx]
      cases hr : read₁ (mem₁.drop k) (lim - k) elem.freshVal with
      | ok n' v =>
        rw [hr] at hb
        exact .early hends (S.free hb)
      | err e =>
        rw [hr] at hb
        exact .done (Or.inr ⟨hb, x, rfl, hends⟩)
      | stop y =>
        rw [hr] at hb
        exact .done (Or.inr ⟨hb, x, rfl, hends⟩)

/-- The elements of a fixed size range keep step, and a whole range is read over. -/
theorem readEach_sim {read₁ read₂ : Reader} (h : S.Readers read₁ read₂) (elem : Fld) (first : Bool)
    {es₁ es₂ : List Val} (hlen : es₁.length = es₂.length) (hsame : S.sameTarget → es₁ = es₂)
    {mem₁ mem₂ : List UInt8} {lim : ℕ} (hm : Mem m₁ m₂ mem₁ mem₂ lim) :
    S.Rel (· = ·) (fun vs₁ vs₂ => es₁ = es₂ → vs₁ = vs₂) (readEach m₁ elem read₁ first es₁ mem₁ lim)
      (readEach m₂ elem read₂ first es₂ mem₂ lim) := by
  induction es₁ generalizing es₂ first mem₁ mem₂ lim with
  | nil =>
    obtain rfl : es₂ = [] := by simpa using hlen.symm
    exact Or.inl (.ok rfl)
  | cons e₁ es₁ ih =>
    obtain ⟨e₂, es₂, rfl⟩ : ∃ e es, es₂ = e :: es := by
      cases es₂ with
      | nil => simp at hlen
      | cons e es => exact ⟨e, es, rfl⟩
    simp only [readEach]
    rw [hm.examTag]
    generalize examTag elem first mem₂ lim = k
    cases k with
    | none => exact rel_check (fun _ => Or.inl (.err id)) (fun _ => rfl)
    | some k =>
      have he : S.sameTarget → e₁ = e₂ := fun ht => (List.cons.inj (hsame ht)).1
      have hr := h (hm.drop k) he
      dsimp only
      generalize read₁ (mem₁.drop k) (lim - k) e₁ = r₁ at hr ⊢
      generalize read₂ (mem₂.drop k) (lim - k) e₂ = r₂ at hr ⊢
      rcases hr with hr | ⟨hb, x, rfl, hends⟩
      · cases hr with
        | @ok n v v' hv =>
          subst hv
          have hrest := ih false (by simpa using hlen) (fun ht => (List.cons.inj (hsame ht)).2)
            (hm.drop (k + n))
          dsimp only
          generalize readEach m₁ elem read₁ false es₁ (mem₁.drop (k + n)) (lim - (k + n)) = q₁ at hrest ⊢
          generalize readEach m₂ elem read₂ false es₂ (mem₂.drop (k + n)) (lim - (k + n)) = q₂ at hrest ⊢
          rcases hrest with hrest | ⟨hb, x, rfl, hends⟩
          · cases hrest with
            | ok hvs => exact Or.inl (.ok (congrArg _ hvs))
            | err hvs => exact Or.inl (.err fun heq => congrArg _ (hvs (List.cons.inj heq).2))
            | stop => exact Or.inl .stop
          · refine Or.inr ⟨?_, x, rfl, hends⟩
            cases q₁ <;> exact hb
        | err hv =>
          apply Or.inl
          apply Agree.err
          intro heq
          obtain ⟨h1, h2⟩ := List.cons.inj heq
          rw [hv h1, h2]
        | stop => exact Or.inl .stop
      · refine Or.inr ⟨?_, x, rfl, hends⟩
        cases r₁ with
        | ok n v => exact S.free hb _
        | err e => exact hb
        | stop y => exact hb

theorem listOf_rel {E : List Val → List Val → Prop} {E' : Val → Val → Prop}
    {q₁ q₂ : Res (PbErr × List Val) (List Val)} (h : S.Rel (· = ·) E q₁ q₂)
    (hE : ∀ vs vs', E vs vs' → E' (.list vs) (.list vs')) :
    S.Rel (· = ·) E' (listOf q₁) (listOf q₂) := by
  rcases h with h | ⟨hb, x, rfl, hends⟩
  · cases h with
    | ok h => exact Or.inl (.ok (congrArg _ h))
    | err h => exact Or.inl (.err (hE _ _ h))
    | stop => exact Or.inl .stop
  · refine Or.inr ⟨?_, x, rfl, hends⟩
    cases q₁ <;> exact hb

theorem readStatic_sim {read₁ read₂ : Reader} (h : S.Readers read₁ read₂) (elem : Fld)
    (c : Container) {mem₁ mem₂ : List UInt8} {len : ℕ} (hm : Mem m₁ m₂ mem₁ mem₂ len) {u₁ u₂ : Val}
    (hu : S.sameTarget → u₁ = u₂) :
    S.Rel (· = ·) (fun v₁ v₂ => u₁ = u₂ → v₁ = v₂) (readStatic m₁ elem c read₁ mem₁ len u₁)
      (readStatic m₂ elem c read₂ mem₂ len u₂) := by
  have hinto : ∀ es₁ es₂ : List Val, es₁.length = es₂.length → (u₁ = u₂ → es₁ = es₂) →
      S.Rel (· = ·) (fun v₁ v₂ => u₁ = u₂ → v₁ = v₂)
        (readOver m₁ elem c read₁ mem₁ len es₁) (readOver m₂ elem c read₂ mem₂ len es₂) := by
    intro es₁ es₂ hlen hes
    unfold readOver
    by_cases hl : elem.sameAsWireLayout c = true
    · rw [if_pos hl, if_pos hl]
      have hload := hm.load (k := 0) (by omega : 0 + len ≤ len)
      simp only [List.drop_zero] at hload
      rw [hload]
      cases load len mem₂ with
      | none => exact Or.inl .stop
      | some bs => exact Or.inl (.ok rfl)
    · rw [if_neg hl, if_neg hl]
      have hsame : S.sameTarget → es₁ = es₂ := fun ht => hes (hu ht)
      refine listOf_rel (readEach_sim h elem true hlen hsame hm) ?_
      intro vs vs' hvs heq
      rw [hvs (hes heq)]
  rw [readStatic_eq, readStatic_eq]
  cases c with
  | fixed n array =>
    dsimp only
    by_cases hcnt : len / elem.staticFldSize = n
    · rw [if_pos hcnt, if_pos hcnt]
      apply hinto
      · simp [Val.elemsOf]
      · intro heq
        rw [heq]
    · rw [if_neg hcnt, if_neg hcnt]
      exact Or.inl (.err id)
  | _ =>
    apply hinto
    · simp
    · intro heq
      rw [heq]

/-- What becomes of a result does not depend on which of the two it is. -/
theorem rel_then {r₁ r₂ : Rd} {E : Val → Val → Prop} (k : ℕ → Val → Rd)
    (hk : ∀ n v, S.Rel (· = ·) E (k n v) (k n v)) :
    S.Rel (· = ·) E r₁ r₂ → S.Rel (· = ·) E
      (match r₁ with
      | .ok n v => k n v
      | r => r)
      (match r₂ with
      | .ok n v => k n v
      | r => r) := by
  intro h
  rcases h with h | ⟨hb, x, rfl, hends⟩
  · cases h with
    | @ok n v v' hv =>
      subst hv
      exact hk n v
    | err h => exact Or.inl (.err h)
    | stop => exact Or.inl .stop
  · refine Or.inr ⟨?_, x, rfl, hends⟩
    cases r₁ with
    | ok n v => exact S.free hb _
    | err e => exact hb
    | stop y => exact hb

/-- An assertion about where a read that went well has ended. -/
theorem rel_checkOk {r₁ r₂ : Rd} {E : Val → Val → Prop} (e : Event)
    (he : ∀ x, m₁.After e x) (bad : ℕ → Bool) :
    S.Rel (· = ·) E r₁ r₂ → S.Rel (· = ·) E
      (match r₁ with
      | .ok n _ => m₁.check e (bad n) r₁
      | r => r)
      (match r₂ with
      | .ok n _ => m₂.check e (bad n) r₂
      | r => r) := by
  intro h
  rcases h with h | ⟨hb, x, rfl, hends⟩
  · cases h with
    | ok h => exact rel_check (fun _ => Or.inl (.ok h)) (fun _ => he _)
    | err h => exact Or.inl (.err h)
    | stop => exact Or.inl .stop
  · refine Or.inr ⟨?_, x, rfl, hends⟩
    cases r₁ with
    | ok n v => exact S.free hb _
    | err e => exact hb
    | stop y => exact hb

theorem readElems_sim {read₁ read₂ : Reader} (h : S.Readers read₁ read₂) (elem : Fld)
    (c : Container) {mem₁ mem₂ : List UInt8} {len : ℕ} (hm : Mem m₁ m₂ mem₁ mem₂ len) {u₁ u₂ : Val}
    (hu : S.sameTarget → u₁ = u₂) :
    S.Rel (· = ·) (fun v₁ v₂ => u₁ = u₂ → v₁ = v₂) (readElems m₁ elem c read₁ mem₁ len u₁)
      (readElems m₂ elem c read₂ mem₂ len u₂) := by
  have hloop : S.Rel (· = ·) (fun v₁ v₂ => u₁ = u₂ → v₁ = v₂)
      (loop (elemTurn elem c read₁) len ⟨mem₁, len, 0, []⟩)
      (loop (elemTurn elem c read₂) len ⟨mem₂, len, 0, []⟩) := by
    apply Rel.mono (E := (· = ·))
    · exact loop_rel (fun s t hst => elemTurn_sim h elem c hst) len ⟨rfl, rfl, rfl, hm⟩
    · intro v v' hv _
      exact hv
  have hcleared := rel_then
    (fun n v =>
      if elem.isPacked && n ≠ len then .err (.invalidLength, v)
      else if (elem.isPacked && elem.isStaticLen) && v.elems.length ≠ len / elem.staticFldSize then
        .err (.invalidLength, v)
      else .ok n v)
    (fun n v => by split_ifs <;> first | exact Or.inl (.err fun _ => rfl) | exact Or.inl (.ok rfl))
    hloop
  have hstatic := readStatic_sim h elem c hm hu
  cases c with
  | set o => exact hcleared
  | map o => exact hcleared
  | vec buf =>
    simp only [readElems]
    by_cases hst : (elem.isPacked && elem.isStaticLen) = true
    · rw [if_pos hst, if_pos hst]
      exact hstatic
    · rw [if_neg hst, if_neg hst]
      exact hcleared
  | fixed n array =>
    simp only [readElems]
    by_cases hst : (elem.isPacked && elem.isStaticLen) = true
    · rw [if_pos hst, if_pos hst]
      exact hstatic
    · rw [if_neg hst, if_neg hst]
      have hlen : (u₁.elemsOf n).length = (u₂.elemsOf n).length := by simp [Val.elemsOf]
      have heach := readEach_sim h elem true hlen (fun ht => by rw [hu ht]) hm
      refine rel_then
        (fun k v => if elem.isPacked && k ≠ len then .err (.invalidLength, v) else .ok k v) ?_
        (listOf_rel heach fun vs vs' hvs heq => by rw [hvs (by rw [heq])])
      intro k v
      split_ifs
      · exact Or.inl (.err fun _ => rfl)
      · exact Or.inl (.ok rfl)

theorem repeatedRead_sim {read₁ read₂ : Reader} (h : S.Readers read₁ read₂) (elem : Fld)
    (c : Container) : S.Readers (repeatedRead m₁ elem c read₁) (repeatedRead m₂ elem c read₂) := by
  intro mem₁ mem₂ lim u₁ u₂ hm hu
  unfold repeatedRead
  by_cases hp : elem.isPacked = true
  · simp only [hp, if_true]
    rw [hm.varint]
    apply rel_andThen id
    intro k len hk
    by_cases hlen : lim < k + len
    · rw [if_pos hlen, if_pos hlen]
      exact Or.inl (.err id)
    rw [if_neg hlen, if_neg hlen]
    by_cases hst : (elem.isStaticLen && len % elem.staticFldSize ≠ 0) = true
    · rw [if_pos hst, if_pos hst]
      exact Or.inl (.err id)
    rw [if_neg hst, if_neg hst]
    exact rel_checkOk .packedEnd (fun _ => trivial) (fun n => n ≠ k + len)
      (rel_advance (readElems_sim h elem c (hm.region (by omega : k + len ≤ lim)) hu) k)
  · simp only [hp, if_false, Bool.false_eq_true]
    exact rel_check (fun _ => readElems_sim h elem c hm hu) (fun _ => trivial)

/-- The cases of the two machines. -/
structure Alike (S : Sim m₁ m₂) (c₁ c₂ : Case) : Prop where
  tag : c₁.tag = c₂.tag
  idx : c₁.idx = c₂.idx
  read : S.Readers c₁.read c₂.read

abbrev Cases (S : Sim m₁ m₂) (cases₁ cases₂ : List Case) : Prop :=
  List.Forall₂ (Alike S) cases₁ cases₂

theorem Cases.ownCase {cases₁ cases₂ : List Case} (h : S.Cases cases₁ cases₂) (tag : ℕ) :
    (ownCase cases₁ tag = none ∧ ownCase cases₂ tag = none) ∨
      ∃ c₁ c₂, ownCase cases₁ tag = some c₁ ∧ ownCase cases₂ tag = some c₂ ∧ Alike S c₁ c₂ := by
  unfold Jkl.Pb.ownCase
  induction h with
  | nil => simp
  | @cons c₁ c₂ _ _ hc _ ih =>
    by_cases ht : c₁.tag = tag
    · have ht₂ : c₂.tag = tag := by rw [← hc.tag, ht]
      simp [ht, ht₂, hc]
    · have ht₂ : c₂.tag ≠ tag := by rwa [← hc.tag]
      simpa [ht, ht₂] using ih

/-- The members of the two targets while a message is read: those that were read are the same, and
all are if the targets were. -/
structure Members (L : ℕ) (P : Prop) (bits : Bits) (vs₁ vs₂ : List Val) : Prop where
  left : vs₁.length = L
  right : vs₂.length = L
  read : ∀ i, bits i = true → vs₁.getD i .none = vs₂.getD i .none
  same : P → vs₁ = vs₂

theorem getD_set (vs : List Val) (i j : ℕ) (v : Val) :
    (vs.set i v).getD j .none = if i = j ∧ j < vs.length then v else vs.getD j .none := by
  simp only [List.getD_eq_getElem?_getD, List.getElem?_set]
  by_cases hij : i = j
  · subst hij
    by_cases hlt : i < vs.length
    · simp [hlt]
    · simp [hlt]
  · simp [hij]

theorem ext_getD {vs vs' : List Val} (hlen : vs.length = vs'.length)
    (h : ∀ i < vs.length, vs.getD i .none = vs'.getD i .none) : vs = vs' := by
  apply List.ext_getElem hlen
  intro i hi hi'
  have hget := h i hi
  rwa [List.getD_eq_getElem?_getD, List.getD_eq_getElem?_getD, List.getElem?_eq_getElem hi,
    List.getElem?_eq_getElem hi'] at hget

variable {L : ℕ} {P : Prop} {bits : Bits} {vs₁ vs₂ : List Val}

theorem Members.set (h : Members L P bits vs₁ vs₂) (i : ℕ) (v : Val) :
    Members L P (bits.set i) (vs₁.set i v) (vs₂.set i v) := by
  constructor
  · simpa using h.left
  · simpa using h.right
  · intro j hj
    rw [getD_set, getD_set, h.left, h.right]
    split_ifs with hij
    · rfl
    · by_cases hji : j = i
      · have hout : ∀ vs : List Val, vs.length = L → vs.getD j .none = .none := by
          intro vs hvs
          rw [List.getD_eq_getElem?_getD, List.getElem?_eq_none (by omega)]
          rfl
        rw [hout vs₁ h.left, hout vs₂ h.right]
      · apply h.read j
        simpa [Bits.set, hji] using hj
  · intro hp
    rw [h.same hp]

/-- A member that was not read may be left different. -/
theorem Members.set_err (h : Members L P bits vs₁ vs₂) {i : ℕ} {v₁ v₂ : Val}
    (hv : vs₁.getD i .none = vs₂.getD i .none → v₁ = v₂) :
    Members L P bits (vs₁.set i v₁) (vs₂.set i v₂) := by
  constructor
  · simpa using h.left
  · simpa using h.right
  · intro j hj
    have hread := h.read j hj
    rw [getD_set, getD_set, h.left, h.right]
    split_ifs with hij
    · exact hv (hij.1 ▸ hread)
    · exact hread
  · intro hp
    rw [hv (by rw [h.same hp]), h.same hp]

theorem Case.run_sim {c₁ c₂ : Case} (hc : Alike S c₁ c₂) (hP : S.sameTarget → P)
    (h : Members L P bits vs₁ vs₂) {mem₁ mem₂ : List UInt8} {lim : ℕ}
    (hm : Mem m₁ m₂ mem₁ mem₂ lim) :
    S.Rel (fun a₁ a₂ => a₁.2 = a₂.2 ∧ Members L P a₁.2 a₁.1 a₂.1)
      (fun vs₁ vs₂ => Members L P bits vs₁ vs₂) (c₁.run mem₁ lim vs₁ bits) (c₂.run mem₂ lim vs₂ bits) := by
  unfold Jkl.Pb.Case.run
  have hu : S.sameTarget → vs₁.getD c₁.idx .none = vs₂.getD c₂.idx .none := by
    intro ht
    rw [h.same (hP ht), hc.idx]
  have hr := hc.read hm hu
  rw [hc.idx] at hr ⊢
  generalize c₁.read mem₁ lim (vs₁.getD c₂.idx .none) = r₁ at hr ⊢
  generalize c₂.read mem₂ lim (vs₂.getD c₂.idx .none) = r₂ at hr ⊢
  rcases hr with hr | ⟨hb, x, rfl, hends⟩
  · cases hr with
    | @ok n v v' hv =>
      subst hv
      exact Or.inl (.ok ⟨rfl, h.set _ _⟩)
    | err hv => exact Or.inl (.err (h.set_err hv))
    | stop => exact Or.inl .stop
  · refine Or.inr ⟨?_, x, rfl, hends⟩
    cases r₁ <;> exact hb

/-- A tag that belongs to no field leads to the same on both sides. -/
theorem readSubFlds_sim {cases₁ cases₂ : List Case} (hcs : S.Cases cases₁ cases₂)
    (hP : S.sameTarget → P) (flds : List Fld) (h : Members L P bits vs₁ vs₂)
    {mem₁ mem₂ : List UInt8} {lim : ℕ} (hm : Mem m₁ m₂ mem₁ mem₂ lim) (tag : ℕ) :
    let r (m : Machine) (cases : List Case) (mem : List UInt8) (vs : List Val) :=
      m.check .refill ((ownCase cases tag).any fun c => isFull flds bits c.idx)
        (readSubFlds cases tag mem lim vs bits)
    (ownCase cases₁ tag).isSome = (ownCase cases₂ tag).isSome ∧
      S.Rel (fun a₁ a₂ => a₁.2 = a₂.2 ∧ Members L P a₁.2 a₁.1 a₂.1)
        (fun vs₁ vs₂ => Members L P bits vs₁ vs₂) (r m₁ cases₁ mem₁ vs₁) (r m₂ cases₂ mem₂ vs₂) ∧
      ((ownCase cases₂ tag).isSome = false →
        Agree (fun a₁ a₂ => a₁.2 = a₂.2 ∧ Members L P a₁.2 a₁.1 a₂.1)
          (fun vs₁ vs₂ => Members L P bits vs₁ vs₂) (r m₁ cases₁ mem₁ vs₁) (r m₂ cases₂ mem₂ vs₂)) := by
  intro r
  dsimp only [r]
  rw [readSubFlds_eq, readSubFlds_eq, hcs.length_eq]
  rcases hcs.ownCase tag with ⟨h₁, h₂⟩ | ⟨c₁, c₂, h₁, h₂, hc⟩
  · have hagree : Agree (fun a₁ a₂ : List Val × Bits => a₁.2 = a₂.2 ∧ Members L P a₁.2 a₁.1 a₂.1)
        (fun vs₁ vs₂ => Members L P bits vs₁ vs₂)
        (if isPadding cases₂.length tag then .stop .unreachable else .err (.tagMismatch, vs₁))
        (if isPadding cases₂.length tag then .stop .unreachable else .err (.tagMismatch, vs₂)) := by
      split_ifs
      · exact .stop
      · exact .err h
    simp only [h₁, h₂, Machine.check, Option.any_none, Bool.and_false, Bool.false_eq_true, if_false]
    exact ⟨trivial, Or.inl hagree, fun _ => hagree⟩
  · simp only [h₁, h₂, Option.any_some, Option.isSome_some, hc.idx]
    refine ⟨trivial, ?_, by simp⟩
    exact rel_check (fun _ => Case.run_sim hc hP h hm) (fun _ => trivial)

/-- Two skips in step. -/
def Skips (S : Sim m₁ m₂) (r₁ r₂ : Scan Unit) : Prop :=
  r₁ = r₂ ∨ ∃ x, r₂ = .stop x ∧ S.ends x ∧ ∀ y, S.bad y

theorem skips_check {r₁ r₂ : Scan Unit} (h : Skips S r₁ r₂) (e : Event) (he : ∀ x, m₁.After e x)
    (b : Bool) : Skips S (m₁.check e b r₁) (m₂.check e b r₂) := by
  unfold Machine.check
  cases b with
  | false => simpa using h
  | true =>
    cases h₁ : m₁.traps e with
    | true =>
      rw [S.le e h₁]
      exact Or.inl rfl
    | false =>
      cases h₂ : m₂.traps e with
      | true =>
        have hs := fun x => S.site e x h₁ h₂ (he x)
        exact Or.inr ⟨_, rfl, (hs .ok).1, fun y => (hs y).2⟩
      | false => exact h

theorem skipUnknown_sim {mem₁ mem₂ : List UInt8} {lim : ℕ} (hm : Mem m₁ m₂ mem₁ mem₂ lim)
    (tag : ℕ) : Skips S (skipUnknown m₁ tag mem₁ lim) (skipUnknown m₂ tag mem₂ lim) := by
  unfold skipUnknown
  rw [skipVarint_eq, skipVarint_eq, hm.varint, hm.varint]
  split
  · exact Or.inl rfl
  · exact Or.inl rfl
  · exact Or.inl rfl
  · exact Or.inl rfl
  · exact skips_check (Or.inl rfl) .wireType (fun _ => trivial) true

structure MsgsInStep (m₁ m₂ : Machine) (L : ℕ) (P : Prop) (s t : MsgState) : Prop where
  lim : s.lim = t.lim
  n : s.n = t.n
  bits : s.bits = t.bits
  mem : Mem m₁ m₂ s.mem t.mem s.lim
  vs : Members L P s.bits s.vs t.vs

theorem msgTurn_sim {cases₁ cases₂ : List Case} (hcs : S.Cases cases₁ cases₂) (hP : S.sameTarget → P) (flds : List Fld) {s t : MsgState} (hst : MsgsInStep m₁ m₂ L P s t) :
    S.Turns (MsgsInStep m₁ m₂ L P) (fun a₁ a₂ => a₁.2 = a₂.2 ∧ Members L P a₁.2 a₁.1 a₂.1)
      (fun vs₁ vs₂ => P → vs₁ = vs₂) (msgTurn m₁ flds cases₁ s) (msgTurn m₂ flds cases₂ t) := by
  obtain ⟨mem₁, lim, n, vs₁, bits⟩ := s
  obtain ⟨mem₂, lim, n, vs₂, bits⟩ := t
  obtain ⟨rfl, rfl, rfl, hm, hv⟩ := hst
  unfold msgTurn
  by_cases hlim : lim = 0
  · simp only [hlim, if_true]
    exact .done (Or.inl (.ok ⟨rfl, hv⟩))
  simp only [hlim, if_false]
  rw [hm.varint]
  cases readVarintUint 32 mem₂ lim with
  | err e => exact .done (Or.inl (.err hv.same))
  | stop x => exact .done (Or.inl .stop)
  | ok k tag =>
    obtain ⟨hown, hrel, hagree⟩ := readSubFlds_sim hcs hP flds hv (hm.drop k) tag
    have hskip := skips_check (S := S) (skipUnknown_sim (hm.drop k) tag) .swallow (fun _ => trivial)
      (ownCase cases₂ tag).isSome
    simp only [hown] at hrel hagree ⊢
    generalize m₁.check .refill _ _ = r₁ at hrel hagree ⊢
    generalize m₂.check .refill _ _ = r₂ at hrel hagree ⊢
    rcases hrel with hrel | ⟨hb, x, rfl, hends⟩
    · cases hrel with
      | @ok n' a a' h =>
        obtain ⟨vs₁', bits'⟩ := a
        obtain ⟨vs₂', bits'⟩ := a'
        obtain ⟨rfl, hv'⟩ := h
        exact .next ⟨rfl, rfl, rfl, hm.drop (k + n'), hv'⟩
      | @err e vs₁' vs₂' hv' =>
        dsimp only
        by_cases he : e = .tagMismatch
        · rw [if_pos he, if_pos he]
          rcases hskip with hskip | ⟨x, hx, hends, hbad⟩
          · rw [hskip]
            cases m₂.check .swallow _ (skipUnknown m₂ tag (mem₂.drop k) (lim - k)) with
            | ok n' a => exact .next ⟨rfl, rfl, rfl, hm.drop (k + n'), hv'⟩
            | err e => exact .done (Or.inl (.err hv'.same))
            | stop x => exact .done (Or.inl .stop)
          · rw [hx]
            exact .early hends hbad
        · rw [if_neg he, if_neg he]
          exact .done (Or.inl (.err hv'.same))
      | stop => exact .done (Or.inl .stop)
    · cases r₁ with
      | ok n' a => exact .early hends (S.free hb)
      | stop y => exact .done (Or.inr ⟨hb, x, rfl, hends⟩)
      | err q =>
        obtain ⟨e, vs₁'⟩ := q
        dsimp only
        by_cases he : e = .tagMismatch
        · rw [if_pos he]
          subst he
          rcases S.swallowed hb with hbad | ⟨htrap, hbad⟩
          · exact .early hends hbad
          · have hsome : (ownCase cases₂ tag).isSome = true := by
              by_contra hnone
              nomatch hagree (by simpa using hnone)
            rw [Machine.check, htrap, hsome]
            exact .done (Or.inr ⟨hbad, x, rfl, hends⟩)
        · rw [if_neg he]
          exact .done (Or.inr ⟨hb, x, rfl, hends⟩)

theorem validate_congr {c : Check} {vs₁ vs₂ : List Val}
    (h : ∀ j ∈ c.reads, vs₁.getD j .none = vs₂.getD j .none) : c.validate vs₁ = c.validate vs₂ := by
  unfold Check.validate
  rw [List.map_congr_left h]

/-- Clearing forgets the target. -/
def Resets (S : Sim m₁ m₂) (f : Fld) : Prop :=
  f.isOptional = true → S.sameTarget ∨ ∀ u u', f.clearVal u = f.clearVal u'

theorem examSubFlds_sim (hP : S.sameTarget → P) {i : ℕ} {fs : List Fld}
    (hclear : ∀ f ∈ fs, Resets S f) (h : Members L P bits vs₁ vs₂)
    (hdone : ∀ j < i, vs₁.getD j .none = vs₂.getD j .none) (hlen : L = i + fs.length) :
    S.Rel (· = ·) (fun vs₁ vs₂ => P → vs₁ = vs₂) (examSubFlds m₁ bits i fs vs₁)
      (examSubFlds m₂ bits i fs vs₂) := by
  induction fs generalizing i vs₁ vs₂ with
  | nil =>
    apply Or.inl
    apply Agree.ok
    apply ext_getD (h.left.trans h.right.symm)
    intro j hj
    rw [h.left, hlen] at hj
    exact hdone j hj
  | cons f fs ih =>
    have hrest : ∀ f ∈ fs, Resets S f := fun g hg => hclear g (by simp [hg])
    have hlen' : L = i + 1 + fs.length := by
      rw [hlen, List.length_cons]
      omega
    unfold examSubFlds
    by_cases hbit : bits i = true
    · have hdone' : ∀ j < i + 1, vs₁.getD j .none = vs₂.getD j .none := by
        intro j hj
        by_cases hji : j = i
        · rw [hji]
          exact h.read i hbit
        · exact hdone j (by omega)
      rw [if_pos hbit, if_pos hbit]
      cases f.params.pCheck with
      | none => exact ih hrest h hdone' hlen'
      | some c =>
        refine rel_check ?_ (fun _ => trivial)
        intro hstale
        have hverdict : c.validate vs₁ = c.validate vs₂ := by
          rcases S.stale with ht | htrap
          · rw [h.same (hP ht)]
          · apply validate_congr
            intro j hj
            by_cases hji : j < i + 1
            · exact hdone' j hji
            · apply h.read j
              by_contra hunread
              apply hstale
              refine ⟨?_, htrap⟩
              simp only [List.any_eq_true]
              exact ⟨j, hj, by simp [hunread]; omega⟩
        rw [hverdict]
        cases c.validate vs₂ with
        | none => exact ih hrest h hdone' hlen'
        | some e =>
          apply rel_check
          · intro _
            exact Or.inl (.err h.same)
          · intro he
            show Shape.err e = _
            rw [of_decide_eq_true he]
    · rw [if_neg hbit, if_neg hbit]
      by_cases hopt : f.isOptional = true
      · rw [if_pos hopt, if_pos hopt]
        have hval : f.clearVal (vs₁.getD i .none) = f.clearVal (vs₂.getD i .none) := by
          rcases hclear f (by simp) hopt with ht | hconst
          · rw [h.same (hP ht)]
          · exact hconst _ _
        apply ih hrest (h.set_err fun _ => hval) _ hlen'
        intro j hj
        rw [getD_set, getD_set, hval, h.left, h.right]
        split_ifs with hij
        · rfl
        · apply hdone j
          by_contra hji
          rw [List.length_cons] at hlen
          exact hij ⟨by omega, by omega⟩
      · rw [if_neg hopt, if_neg hopt]
        exact Or.inl (.err h.same)

theorem readFields_sim {cases₁ cases₂ : List Case} (hcs : S.Cases cases₁ cases₂)
    (hP : S.sameTarget → P) {flds : List Fld} (hclear : ∀ f ∈ flds, Resets S f) (skipLen : Bool)
    (h₁ : vs₁.length = flds.length) (h₂ : vs₂.length = flds.length) (hv : P → vs₁ = vs₂)
    {mem₁ mem₂ : List UInt8} {lim : ℕ} (hm : Mem m₁ m₂ mem₁ mem₂ lim) :
    S.Rel (· = ·) (fun vs₁ vs₂ => P → vs₁ = vs₂) (readFields m₁ skipLen flds cases₁ mem₁ lim vs₁)
      (readFields m₂ skipLen flds cases₂ mem₂ lim vs₂) := by
  have hstart : MsgsInStep m₁ m₂ flds.length P ⟨mem₁, lim, 0, vs₁, fun _ => false⟩
      ⟨mem₂, lim, 0, vs₂, fun _ => false⟩ :=
    ⟨rfl, rfl, rfl, hm, h₁, h₂, by simp, hv⟩
  have hloop := loop_rel (fun s t hst => msgTurn_sim hcs hP flds hst) lim hstart
  unfold readFields
  generalize loop (msgTurn m₁ flds cases₁) lim _ = r₁ at hloop ⊢
  generalize loop (msgTurn m₂ flds cases₂) lim _ = r₂ at hloop ⊢
  rcases hloop with hr | ⟨hb, x, rfl, hends⟩
  · cases hr with
    | @ok n a a' h =>
      obtain ⟨vs₁', bits⟩ := a
      obtain ⟨vs₂', bits⟩ := a'
      obtain ⟨rfl, hmem⟩ := h
      refine rel_check (fun _ => ?_) (fun _ => trivial)
      have hexam := examSubFlds_sim (i := 0) hP hclear hmem (by simp) (by simp)
      dsimp only at hexam ⊢
      generalize examSubFlds m₁ bits 0 flds vs₁' = q₁ at hexam ⊢
      generalize examSubFlds m₂ bits 0 flds vs₂' = q₂ at hexam ⊢
      rcases hexam with hq | ⟨hb, x, rfl, hends⟩
      · cases hq with
        | ok h => exact Or.inl (.ok h)
        | err h => exact Or.inl (.err h)
        | stop => exact Or.inl .stop
      · refine Or.inr ⟨?_, x, rfl, hends⟩
        cases q₁ <;> exact hb
    | err h => exact Or.inl (.err h)
    | stop => exact Or.inl .stop
  · refine Or.inr ⟨?_, x, rfl, hends⟩
    cases r₁ with
    | ok n a => exact S.free hb _
    | err e => exact hb
    | stop y => exact hb

theorem length_fresh (fs : List Fld) : (Fld.fresh fs).length = fs.length := by
  induction fs with
  | nil => rfl
  | cons f fs ih => simp [Fld.fresh, ih]

theorem length_membersOf (n : ℕ) (v : Val) : (v.membersOf n).length = n := by
  simp [Val.membersOf]

theorem messageRead_sim {cases₁ cases₂ : List Case} (hcs : S.Cases cases₁ cases₂) (p : Params)
    {flds : List Fld} (hclear : ∀ f ∈ flds, Resets S f) (skipLen : Bool) :
    S.Readers (messageRead m₁ skipLen p flds cases₁) (messageRead m₂ skipLen p flds cases₂) := by
  intro mem₁ mem₂ lim u₁ u₂ hm hu
  have hbody : ∀ {mem₁ mem₂ : List UInt8} {lim : ℕ}, Mem m₁ m₂ mem₁ mem₂ lim →
      let vs (u : Val) := if p.pOptional && !u.isSome then Fld.fresh flds
        else (p.constVal u).membersOf flds.length
      S.Rel (· = ·) (fun v₁ v₂ => u₁ = u₂ → v₁ = v₂)
        (msgOf p (readFields m₁ skipLen flds cases₁ mem₁ lim (vs u₁)))
        (msgOf p (readFields m₂ skipLen flds cases₂ mem₂ lim (vs u₂))) := by
    intro mem₁ mem₂ lim hm vs
    have hlen : ∀ u, (vs u).length = flds.length := by
      intro u
      simp only [vs]
      split_ifs
      · exact length_fresh flds
      · exact length_membersOf _ _
    have hr := readFields_sim hcs hu hclear skipLen (hlen u₁) (hlen u₂)
      (fun heq => by rw [heq]) hm
    generalize readFields m₁ skipLen flds cases₁ mem₁ lim (vs u₁) = r₁ at hr ⊢
    generalize readFields m₂ skipLen flds cases₂ mem₂ lim (vs u₂) = r₂ at hr ⊢
    rcases hr with hr | ⟨hb, x, rfl, hends⟩
    · cases hr with
      | ok h => exact Or.inl (.ok (by rw [h]))
      | err h => exact Or.inl (.err fun heq => by rw [h heq])
      | stop => exact Or.inl .stop
    · refine Or.inr ⟨?_, x, rfl, hends⟩
      cases r₁ <;> exact hb
  unfold messageRead
  dsimp only
  by_cases hskip : skipLen = true
  · rw [if_pos hskip, if_pos hskip]
    exact hbody hm
  · rw [if_neg hskip, if_neg hskip, hm.varint]
    apply rel_andThen id
    intro k len hk
    by_cases hlen : lim < k + len
    · rw [if_pos hlen, if_pos hlen]
      exact Or.inl (.err id)
    · rw [if_neg hlen, if_neg hlen]
      exact rel_advance (hbody (hm.region (by omega))) k

theorem oneofRead_sim {read₁ read₂ : Reader} (h : S.Readers read₁ read₂) (mem : Fld) (I : ℕ) :
    S.Readers (oneofRead mem I read₁) (oneofRead mem I read₂) := by
  intro mem₁ mem₂ lim u₁ u₂ hm hu
  unfold oneofRead
  dsimp only
  generalize hv : (fun u : Val => if u.active.1 = I + 1 then u.active.2 else mem.freshVal) = v
  have hw : ∀ u : Val, (if u.active.1 = I + 1 then u.active.2 else mem.freshVal) = v u := by
    intro u
    rw [← hv]
  rw [hw, hw]
  have hr := h hm (fun ht => congrArg v (hu ht))
  generalize read₁ mem₁ lim (v u₁) = r₁ at hr ⊢
  generalize read₂ mem₂ lim (v u₂) = r₂ at hr ⊢
  rcases hr with hr | ⟨hb, x, rfl, hends⟩
  · cases hr with
    | ok h => exact Or.inl (.ok (by rw [h]))
    | err h => exact Or.inl (.err fun heq => by rw [h (by rw [heq])])
    | stop => exact Or.inl .stop
  · refine Or.inr ⟨?_, x, rfl, hends⟩
    cases r₁ <;> exact hb

abbrev ReaderLists (S : Sim m₁ m₂) (rs₁ rs₂ : List Reader) : Prop :=
  List.Forall₂ S.Readers rs₁ rs₂

theorem ReaderLists.headD {rs₁ rs₂ : List Reader} (h : ReaderLists S rs₁ rs₂) :
    S.Readers (rs₁.headD fun _ _ _ => .stop .unreachable)
      (rs₂.headD fun _ _ _ => .stop .unreachable) := by
  cases h with
  | nil =>
    intro _ _ _ _ _ _ _
    exact Or.inl .stop
  | cons h _ => exact h

theorem oneofReads_sim {rss₁ rss₂ : List (List Reader)} (h : List.Forall₂ (ReaderLists S) rss₁ rss₂)
    (I : ℕ) (fs : List Fld) : ReaderLists S (oneofReads I fs rss₁) (oneofReads I fs rss₂) := by
  induction h generalizing I fs with
  | nil => cases fs <;> exact .nil
  | cons hrs _ ih =>
    cases fs with
    | nil => exact .nil
    | cons f fs => exact .cons (oneofRead_sim (ReaderLists.headD hrs) f I) (ih (I + 1) fs)

theorem casesFrom_sim {rss₁ rss₂ : List (List Reader)} (h : List.Forall₂ (ReaderLists S) rss₁ rss₂)
    (i : ℕ) (fs : List Fld) : S.Cases (casesFrom i fs rss₁) (casesFrom i fs rss₂) := by
  have hzip : ∀ (gs : List Fld) {rs₁ rs₂ : List Reader} (i : ℕ), ReaderLists S rs₁ rs₂ →
      S.Cases ((gs.zip rs₁).map fun gr => ⟨gr.1.tag, i, gr.2⟩)
        ((gs.zip rs₂).map fun gr => ⟨gr.1.tag, i, gr.2⟩) := by
    intro gs rs₁ rs₂ i hrs
    induction hrs generalizing gs with
    | nil => simp
    | cons hr _ ih =>
      cases gs with
      | nil => simp
      | cons g gs => exact .cons ⟨rfl, rfl, hr⟩ (ih gs)
  induction h generalizing i fs with
  | nil => cases fs <;> exact .nil
  | cons hrs _ ih =>
    cases fs with
    | nil => exact .nil
    | cons f fs => exact List.rel_append (hzip f.injectedFlds i hrs) (ih (i + 1) fs)

theorem injectedFldReads_sim {fs : List Fld}
    (h : ∀ f ∈ fs, ReaderLists S (f.injectedFldRead m₁) (f.injectedFldRead m₂)) :
    List.Forall₂ (ReaderLists S) (Fld.injectedFldReads m₁ fs) (Fld.injectedFldReads m₂ fs) := by
  induction fs with
  | nil => exact .nil
  | cons f fs ih => exact .cons (h f (by simp)) (ih fun g hg => h g (by simp [hg]))

/-- Every field is read in step on the two machines. -/
theorem injectedFldRead_sim (f : Fld) (hclear : ∀ g ∈ f.subs, Resets S g) :
    ReaderLists S (f.injectedFldRead m₁) (f.injectedFldRead m₂) := by
  induction f using Fld.ind with
  | varint id ty c p => exact .cons (varintRead_sim ty c p) .nil
  | fixed id ty c p => exact .cons (fixedRead_sim ty c p) .nil
  | bytes id b p => exact .cons (bytesRead_sim b p) .nil
  | message id p flds ih =>
    have hsubs : ∀ f ∈ flds, ∀ g ∈ f.subs, Resets S g := by
      intro f hf g hg
      exact hclear g (List.mem_cons_of_mem _ (Fld.mem_subsOf.mpr ⟨f, hf, hg⟩))
    have hcs := casesFrom_sim (injectedFldReads_sim fun f hf => ih f hf (hsubs f hf)) 0 flds
    exact .cons (messageRead_sim hcs p (fun f hf => hsubs f hf f f.self_mem_subs) false) .nil
  | repeated elem c p ih =>
    have helem := ih fun g hg => hclear g (List.mem_cons_of_mem _ hg)
    exact .cons (repeatedRead_sim (ReaderLists.headD helem) elem c) .nil
  | oneof p mems ih =>
    have hsubs : ∀ f ∈ mems, ∀ g ∈ f.subs, Resets S g := by
      intro f hf g hg
      exact hclear g (List.mem_cons_of_mem _ (Fld.mem_subsOf.mpr ⟨f, hf, hg⟩))
    exact oneofReads_sim (injectedFldReads_sim fun f hf => ih f hf (hsubs f hf)) 0 mems

/-- So is a message. -/
theorem read_sim (S : Sim m₁ m₂) (s : Schema) (hclear : ∀ g ∈ Fld.subsOf s.flds, Resets S g)
    (skipLen : Bool) : S.Readers (s.read m₁ skipLen) (s.read m₂ skipLen) := by
  intro mem₁ mem₂ lim u₁ u₂ hm hu
  have hsubs : ∀ f ∈ s.flds, ∀ g ∈ f.subs, Resets S g := by
    intro f hf g hg
    exact hclear g (Fld.mem_subsOf.mpr ⟨f, hf, hg⟩)
  have hcs := casesFrom_sim (injectedFldReads_sim fun f hf => injectedFldRead_sim f (hsubs f hf)) 0 s.flds
  have hr := messageRead_sim hcs .null (fun f hf => hsubs f hf f f.self_mem_subs) skipLen hm hu
  unfold Schema.read
  exact rel_then _
    (fun n v => by
      split
      · exact Or.inl (.ok rfl)
      · split
        · exact Or.inl (.ok rfl)
        · exact Or.inl (.err fun _ => rfl))
    hr

theorem fullRead_sim (S : Sim m₁ m₂) (s : Schema) (hclear : ∀ g ∈ Fld.subsOf s.flds, Resets S g)
    (skipLen : Bool) (b : List UInt8) {d₁ d₂ : Val} (hd : S.sameTarget → d₁ = d₂) :
    S.Rel (· = ·) (fun v₁ v₂ => d₁ = d₂ → v₁ = v₂) (s.fullRead m₁ skipLen b d₁)
      (s.fullRead m₂ skipLen b d₂) := by
  have hmem : Mem m₁ m₂ b b b.length := ⟨rfl, fun _ => rfl, fun _ => le_rfl⟩
  have hr := read_sim S s hclear skipLen hmem hd
  unfold Schema.fullRead
  exact rel_then (fun n v => if n = b.length then .ok n v else .err (.moreDataThanRequired, v))
    (fun n v => by
      split_ifs
      · exact Or.inl (.ok rfl)
      · exact Or.inl (.err fun _ => rfl))
    hr

end Sim
end Jkl.Pb
