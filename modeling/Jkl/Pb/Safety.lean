import Jkl.Pb.Bounds
import Jkl.Pb.Simulation

/-! What follows from watching a read: where it looks, which errors it passes on, and what it
leaves of the target. -/
namespace Jkl.Pb

variable {m₁ m₂ : Machine}

/-- The second machine only traps more. -/
def Sim.more (P : Prop) (le : ∀ e, m₁.traps e = true → m₂.traps e = true)
    (memory : m₁.segmented = m₂.segmented ∨ m₂.traps .overrun = true)
    (stale : P ∨ m₂.traps .staleCheck = true) : Sim m₁ m₂ where
  sameTarget := P
  bad _ := True
  ends x := ∃ e, x = .trap e ∧ m₁.traps e = false
  le := le
  site e _ h₁ _ _ := ⟨⟨e, rfl, h₁⟩, trivial⟩
  free _ _ := trivial
  swallowed _ := Or.inl fun _ => trivial
  memory := memory
  stale := stale

theorem Agree.eq {α β : Type} {P : Prop} {r₁ r₂ : Res (PbErr × β) α}
    (h : Agree (· = ·) (fun b₁ b₂ => P → b₁ = b₂) r₁ r₂) (hP : P) : r₁ = r₂ := by
  cases h with
  | ok h => rw [h]
  | err h => rw [h hP]
  | stop => rfl

namespace Schema

variable (s : Schema) (skipLen : Bool)

/-- A read that meets none of the events that are trapped in addition is the same without the
traps. -/
theorem read_eq_of_quiet (le : ∀ e, m₁.traps e = true → m₂.traps e = true)
    (memory : m₁.segmented = m₂.segmented ∨ m₂.traps .overrun = true) {mem₁ mem₂ : List UInt8}
    {lim : ℕ} (hm : Sim.Mem m₁ m₂ mem₁ mem₂ lim) (d : Val)
    (h : ∀ e, m₁.traps e = false → s.read m₂ skipLen mem₂ lim d ≠ .stop (.trap e)) :
    s.read m₁ skipLen mem₁ lim d = s.read m₂ skipLen mem₂ lim d := by
  have hr := Sim.read_sim (Sim.more True le memory (Or.inl trivial)) s
    (fun _ _ _ => Or.inl trivial) skipLen hm (fun _ => (rfl : d = d))
  rcases hr with hr | ⟨-, x, hx, e, rfl, he⟩
  · exact hr.eq rfl
  · exact absurd hx (h e he)

theorem fullRead_eq_of_quiet (le : ∀ e, m₁.traps e = true → m₂.traps e = true)
    (memory : m₁.segmented = m₂.segmented ∨ m₂.traps .overrun = true) (b : List UInt8) (d : Val)
    (h : ∀ e, m₁.traps e = false → s.fullRead m₂ skipLen b d ≠ .stop (.trap e)) :
    s.fullRead m₁ skipLen b d = s.fullRead m₂ skipLen b d := by
  have hr := Sim.fullRead_sim (Sim.more True le memory (Or.inl trivial)) s
    (fun _ _ _ => Or.inl trivial) skipLen b (fun _ => (rfl : d = d))
  rcases hr with hr | ⟨-, x, hx, e, rfl, he⟩
  · exact hr.eq rfl
  · exact absurd hx (h e he)

/-- The assertions do not change a result. -/
theorem fullRead_release {debug : Bool} {b : List UInt8} {d v : Val} {n : ℕ}
    (h : s.fullRead (.build debug) skipLen b d = .ok n v) :
    s.fullRead (.build false) skipLen b d = .ok n v := by
  rw [← h]
  apply fullRead_eq_of_quiet
  · simp [Machine.build]
  · exact Or.inl rfl
  · intro e _
    rw [h]
    simp

theorem read_release {debug : Bool} {mem : List UInt8} {lim : ℕ} {d v : Val} {n : ℕ}
    (h : s.read (.build debug) skipLen mem lim d = .ok n v) :
    s.read (.build false) skipLen mem lim d = .ok n v := by
  rw [← h]
  refine read_eq_of_quiet s skipLen ?_ ?_ ⟨rfl, fun _ => rfl, ?_⟩ d ?_
  · simp [Machine.build]
  · exact Or.inl rfl
  · simp [Machine.build]
  · intro e _
    rw [h]
    simp

/-- A machine that faults exactly where a bytes field overruns its region, against one that only
watches for it. -/
def overruns : Sim (.confined []) (.watch [.overrun]) where
  sameTarget := True
  bad x := x = .stop .fault
  ends x := x = .trap .overrun
  le := by simp [Machine.confined]
  site e x h₁ h₂ hx := by
    obtain rfl : e = .overrun := by simpa [Machine.watch] using h₂
    exact ⟨rfl, hx rfl⟩
  free h := by simp at h
  swallowed h := by simp at h
  memory := Or.inr (by decide)
  stale := Or.inl trivial

/-- A reader whose length prefix is checked against its region. -/
def ChecksLength (e : PbErr) (read : Reader) : Prop :=
  ∀ mem lim u k len, readVarintUint 32 mem lim = .ok k len → lim < k + len →
    read mem lim u = .err (e, u)

theorem checksLength_message (m : Machine) (p : Params) (flds : List Fld) (cases : List Case) :
    ChecksLength .msgIncomplete (messageRead m false p flds cases) := by
  intro mem lim u k len ht hlen
  simp [messageRead, ht, Res.andThen, hlen]

theorem checksLength_packed (m : Machine) {elem : Fld} (c : Container) (read : Reader)
    (hp : elem.isPacked = true) : ChecksLength .repeatedIncomplete (repeatedRead m elem c read) := by
  intro mem lim u k len ht hlen
  simp [repeatedRead, hp, ht, Res.andThen, hlen]

/-- Reading `[beg, end)` looks at nothing outside the regions it is told to read and ends at or
before `end`; length prefixes that promise more than is there are errors. -/
structure InBounds (debug : Bool) (b beyond : List UInt8) (d : Val) : Prop where
  looks : s.read (.confined []) skipLen b b.length d ≠ .stop .fault
  ends : ∀ n v, s.read (.build debug) skipLen (b ++ beyond) b.length d = .ok n v → n ≤ b.length
  message : ∀ id p flds, .message id p flds ∈ Fld.subsOf s.flds →
    ChecksLength .msgIncomplete (messageRead (.build debug) false p flds (casesOf (.build debug) flds))
  packed : ∀ elem c p, .repeated elem c p ∈ Fld.subsOf s.flds → elem.isPacked = true → ∀ read,
    ChecksLength .repeatedIncomplete (repeatedRead (.build debug) elem c read)

/-- A read stays in bounds if and only if no bytes field is longer than what is left of its
region. -/
theorem inBounds_iff (debug : Bool) (b beyond : List UInt8) (d : Val) :
    s.InBounds skipLen debug b beyond d ↔
      s.read (.watch [.overrun]) skipLen (b ++ beyond) b.length d ≠ .stop (.trap .overrun) := by
  have hle : b.length ≤ (b ++ beyond).length := by simp
  have hmem : Sim.Mem (.confined []) (.watch [.overrun]) b (b ++ beyond) b.length := by
    refine ⟨by simp, ?_, fun _ => le_rfl⟩
    intro h
    simp [Machine.confined, Machine.watch] at h
  have hrel := Sim.read_sim overruns s (fun _ _ _ => Or.inl trivial) skipLen hmem
    (fun _ => (rfl : d = d))
  have hconfined := (s.read_bounded (m := .confined []) skipLen (le_refl b.length) d).2
  have hwatch := s.read_bounded (m := .watch [.overrun]) skipLen hle d
  constructor
  · intro h htrap
    rcases hrel with hrel | ⟨hbad, -⟩
    · rw [htrap] at hrel
      have hstop := hconfined (.trap .overrun) (hrel.eq rfl)
      simp [Machine.Stops, Machine.confined] at hstop
    · apply h.looks
      cases hr : s.read (.confined []) skipLen b b.length d <;> rw [hr] at hbad
      · nomatch hbad
      · nomatch hbad
      · exact congrArg _ (Shape.stop.inj hbad)
  · intro hquiet
    constructor
    · intro hfault
      rcases hrel with hrel | ⟨-, x, hx, rfl⟩
      · rw [hfault] at hrel
        have hstop := hwatch.2 .fault (hrel.eq rfl).symm
        simp [Machine.Stops, Machine.watch] at hstop
      · exact hquiet hx
    · intro n v hok
      have hsame : Sim.Mem (.build false) (.watch [.overrun]) (b ++ beyond) (b ++ beyond) b.length :=
        ⟨rfl, fun _ => rfl, by simp [Machine.build]⟩
      have hle : ∀ e, (Machine.build false).traps e = true → (Machine.watch [.overrun]).traps e = true := by
        simp [Machine.build]
      have heq := s.read_eq_of_quiet skipLen hle (Or.inl rfl) hsame d
        (fun e _ he => by
          have htrap := (hwatch.2 _ he).1
          obtain rfl : e = .overrun := by simpa [Machine.watch] using htrap
          exact hquiet he)
      rw [s.read_release skipLen hok] at heq
      exact hwatch.1 n v heq.symm (by decide)
    · intro id p flds _
      exact checksLength_message _ p flds _
    · intro elem c p _ hp read
      exact checksLength_packed _ c read hp

end Schema

/-- A message with a name. -/
def named : Schema := ⟨[.bytes 1 ⟨none, 1, false⟩ .null], none, by decide⟩

/-- A name of five bytes in a message of three. -/
theorem not_inBounds_named :
    ¬named.InBounds true false [0x0a, 0x05, 0x61] [0x62, 0x63, 0x64, 0x65] (.msg [.bytes []]) := by
  intro h
  have hok : named.read (.build false) true ([0x0a, 0x05, 0x61] ++ [0x62, 0x63, 0x64, 0x65]) 3
      (.msg [.bytes []]) = .ok 7 (.msg [.bytes [0x61, 0x62, 0x63, 0x64, 0x65]]) := by decide +kernel
  have hend := h.ends 7 _ hok
  simp at hend

namespace Schema

variable (s : Schema) (skipLen : Bool)

/-- Where the watched machine stops at the end of a run or at a `p_check`, the other one has
`tag_mismatch` on its way to a message, which swallows it. -/
def mismatches : Sim (.watch [.swallow, .refill])
    (.watch [.swallow, .refill, .shortRun, .checkMismatch]) where
  sameTarget := True
  bad x := x = .err .tagMismatch ∨ x = .stop (.trap .swallow)
  ends x := x = .trap .shortRun ∨ x = .trap .checkMismatch
  le e := by cases e <;> decide
  site e x h₁ h₂ hx := by
    cases e <;> simp [Machine.watch] at h₁ h₂
    · exact ⟨Or.inl rfl, Or.inl hx⟩
    · exact ⟨Or.inr rfl, Or.inl hx⟩
  free h := by simp at h
  swallowed _ := Or.inr ⟨rfl, Or.inr rfl⟩
  memory := Or.inl rfl
  stale := Or.inl trivial

/-- Every error of a known field fails the message: nothing was skipped that a field of the schema
rejected, and no fixed size range was given more elements than it holds. -/
def KnownErrorsFail (b : List UInt8) (d : Val) : Prop :=
  ∀ e, s.fullRead (.watch [.swallow, .refill]) skipLen b d ≠ .stop (.trap e)

/-- An accepted message skipped nothing that a field rejected if and only if no run ended before
its fixed size range was full, none was read into a full one, and no `p_check` returned
`tag_mismatch`. -/
theorem knownErrorsFail_iff (debug : Bool) (b : List UInt8) (d : Val)
    (hok : ∃ n v, s.fullRead (.build debug) skipLen b d = .ok n v) :
    s.KnownErrorsFail skipLen b d ↔
      ∀ e, s.fullRead (.watch [.shortRun, .checkMismatch, .refill]) skipLen b d ≠ .stop (.trap e) := by
  obtain ⟨n, v, hok⟩ := hok
  have hrelease := s.fullRead_release skipLen hok
  have hrel := Sim.fullRead_sim mismatches s (fun _ _ _ => Or.inl trivial) skipLen b
    (fun _ => (rfl : d = d))
  -- nothing is left to be swallowed where both of its causes are trapped
  have hswallow : s.fullRead (.watch [.swallow, .refill, .shortRun, .checkMismatch]) skipLen b d ≠
      .stop (.trap .swallow) := by
    intro h
    have hstop := (s.fullRead_stops skipLen b d h).2 rfl
    simp [Machine.Mismatches, Machine.watch] at hstop
  have hall : s.fullRead (.watch [.shortRun, .checkMismatch, .refill]) skipLen b d =
      s.fullRead (.watch [.swallow, .refill, .shortRun, .checkMismatch]) skipLen b d := by
    apply fullRead_eq_of_quiet
    · intro e
      cases e <;> decide
    · exact Or.inl rfl
    · intro e he h
      have htrap := (s.fullRead_stops skipLen b d h).1
      cases e <;> simp [Machine.watch] at he htrap
      exact hswallow h
  rw [hall]
  constructor
  · intro hquiet e he
    rcases hrel with hrel | ⟨hbad, -⟩
    · exact hquiet e ((hrel.eq rfl).trans he)
    · have hcode : s.fullRead (.build false) skipLen b d =
          s.fullRead (.watch [.swallow, .refill]) skipLen b d := by
        apply fullRead_eq_of_quiet
        · simp [Machine.build]
        · exact Or.inl rfl
        · intro e _
          exact hquiet e
      rw [← hcode, hrelease] at hbad
      simp [mismatches, Res.shape] at hbad
  · intro hquiet e he
    rcases hrel with hrel | ⟨-, x, hx, hends⟩
    · exact hquiet e ((hrel.eq rfl).symm.trans he)
    · rcases hends with rfl | rfl
      · exact hquiet _ hx
      · exact hquiet _ hx

end Schema

/-- A message with two strings in an array. -/
def pair : Schema :=
  ⟨[.repeated (.bytes 1 ⟨none, 1, false⟩ .null) (.fixed 2 true)
      ⟨false, none, none, some fun _ => .list [.bytes [], .bytes []], none⟩], none, by decide⟩

theorem knownErrorsFail_pair :
    pair.KnownErrorsFail true [0x0a, 0x01, 0x61, 0x0a, 0x01, 0x62] (.msg [.list []]) := by
  have hok : pair.fullRead (.build true) true [0x0a, 0x01, 0x61, 0x0a, 0x01, 0x62]
      (.msg [.list []]) = .ok 6 (.msg [.list [.bytes [0x61], .bytes [0x62]]]) := by decide +kernel
  apply (pair.knownErrorsFail_iff true true _ _ ⟨6, _, hok⟩).mpr
  intro e he
  have hquiet : pair.fullRead (.watch [.shortRun, .checkMismatch, .refill]) true
      [0x0a, 0x01, 0x61, 0x0a, 0x01, 0x62] (.msg [.list []]) =
        .ok 6 (.msg [.list [.bytes [0x61], .bytes [0x62]]]) := by decide +kernel
  rw [hquiet] at he
  nomatch he

/-- One string for an array of two is skipped, and the message is accepted. -/
theorem not_knownErrorsFail_pair :
    pair.fullRead (.build true) true [0x0a, 0x01, 0x61] (.msg [.list []]) =
        .ok 3 (.msg [.list [.bytes [], .bytes []]]) ∧
      ¬pair.KnownErrorsFail true [0x0a, 0x01, 0x61] (.msg [.list []]) := by
  constructor
  · decide +kernel
  · intro h
    apply h .swallow
    decide +kernel

namespace Fld

/-- A `p_clear_val` resets the whole field. -/
def ClearsAll (f : Fld) : Prop :=
  ∀ c, f.params.pClearVal = some c → ∀ u u', c u = c u'

theorem clearVal_const {f : Fld} (hf : f.wellFormed = true) (hc : f.ClearsAll)
    (ho : f.isOptional = true) (u u' : Val) : f.clearVal u = f.clearVal u' := by
  have hparams : ∀ p : Params, p.clearable = true → p.isOptional = true →
      (∀ c, p.pClearVal = some c → ∀ u u', c u = c u') → p.clearVal u = p.clearVal u' := by
    intro p hp hopt hpc
    unfold Params.clearVal
    split_ifs with hpo
    · rfl
    · cases hcv : p.pClearVal with
      | some c => exact hpc c hcv u u'
      | none =>
        cases hd : p.pDefault with
        | some x => rfl
        | none => simp [Params.clearable, hopt, hcv, hd, hpo] at hp
  cases f with
  | varint id ty c p =>
    simp only [wellFormed, Bool.and_eq_true] at hf
    exact hparams p hf.1 ho hc
  | fixed id ty c p => exact hparams p hf ho hc
  | bytes id b p =>
    simp only [wellFormed, Bool.and_eq_true] at hf
    simp only [clearVal]
    split_ifs
    · rfl
    · exact hparams p hf.1.1 ho hc
  | message id p flds =>
    simp only [wellFormed, Bool.and_eq_true] at hf
    exact hparams p hf.1.1 ho hc
  | repeated elem c p =>
    simp only [clearVal]
    cases hcv : p.pClearVal with
    | some c => exact hc c hcv u u'
    | none => rfl
  | oneof => simp only [clearVal]

end Fld

/-- Two targets, when no `p_check` looks at a member that is yet to be cleared. -/
def Sim.targets (m : Machine) : Sim m (m.plus [.staleCheck]) :=
  Sim.more False (fun e he => by simp [Machine.plus, he]) (Or.inl rfl)
    (Or.inr (by simp [Machine.plus]))

namespace Schema

/-- A read leaves nothing of what the target held before, unless a `p_check` looks at a member that
is yet to be cleared. -/
theorem fullRead_forgets (s : Schema) (skipLen debug : Bool)
    (hclear : ∀ g ∈ Fld.subsOf s.flds, g.ClearsAll) (b : List UInt8) (d : Val)
    (hquiet : s.fullRead ((Machine.build debug).plus [.staleCheck]) skipLen b d ≠
      .stop (.trap .staleCheck)) (d₁ d₂ v : Val) (n : ℕ) :
    s.fullRead (.build debug) skipLen b d₁ = .ok n v ↔
      s.fullRead (.build debug) skipLen b d₂ = .ok n v := by
  have hsame : ∀ d', s.fullRead (.build debug) skipLen b d' = .ok n v ↔
      s.fullRead ((Machine.build debug).plus [.staleCheck]) skipLen b d = .ok n v := by
    intro d'
    have hr := Sim.fullRead_sim (Sim.targets (.build debug)) s
      (fun g hg ho => Or.inr (Fld.clearVal_const (s.wellFormed_of_mem hg) (hclear g hg) ho)) skipLen b
      (fun h => h.elim : (Sim.targets (.build debug)).sameTarget → d' = d)
    rcases hr with hr | ⟨-, x, hx, e, rfl, he⟩
    · generalize s.fullRead (.build debug) skipLen b d' = r₁ at hr ⊢
      generalize s.fullRead ((Machine.build debug).plus [.staleCheck]) skipLen b d = r₂ at hr ⊢
      cases hr with
      | ok h => rw [h]
      | err => simp
      | stop => simp
    · have htrap := (s.fullRead_stops skipLen b d hx).1
      have hstale : e = .staleCheck := by simpa [Machine.plus, he] using htrap
      exact absurd (hstale ▸ hx) hquiet
  exact (hsame d₁).trans (hsame d₂).symm

end Schema
/-- A number that may not exceed the limit beside it, which is 0 by default. -/
def limited : Schema :=
  ⟨[.varint 1 .int32 .i32 ⟨false, none, none, none, some ⟨[0, 1], fun vs =>
        if (vs.getD 0 .none).toInt ≤ (vs.getD 1 .none).toInt then none else some .validationFailed⟩⟩,
      .varint 2 .int32 .i32 ⟨false, some (.int 0), none, none, none⟩], none, by decide⟩

theorem fullRead_forgets_limited :
    limited.fullRead (.build true) true [0x08, 0x05, 0x10, 0x0a] (.msg [.int 0, .int 0]) =
        .ok 4 (.msg [.int 5, .int 10]) ↔
      limited.fullRead (.build true) true [0x08, 0x05, 0x10, 0x0a] (.msg [.int 7, .int 70]) =
        .ok 4 (.msg [.int 5, .int 10]) := by
  apply limited.fullRead_forgets true true _ _ (.msg [])
  · decide +kernel
  · intro g hg c hc
    simp [Fld.subsOf, Fld.subs, limited] at hg
    rcases hg with rfl | rfl <;> simp [Fld.params] at hc

/-- The limit is not on the wire, and the old one still decides. -/
theorem not_fullRead_forgets_limited :
    limited.fullRead (.build true) true [0x08, 0x05] (.msg [.int 0, .int 10]) =
        .ok 2 (.msg [.int 5, .int 0]) ∧
      limited.fullRead (.build true) true [0x08, 0x05] (.msg [.int 0, .int 0]) =
        .err (.validationFailed, .msg [.int 5, .int 0]) := by
  constructor
  · decide +kernel
  · decide +kernel

end Jkl.Pb
