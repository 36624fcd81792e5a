import Jkl.Async.StopStateCallbacks

/-! The stop state over whole runs: every order of the steps of any number of threads. -/
namespace Jkl.StopState

variable {T C K : Type}

namespace State

variable {s s₁ : State T C K} {t u : T} {f g : Frame C K} {cb : C} {k : K}

theorem Shared.not_mem_of_unborn (h : s.Shared) (hp : s.phase cb = .unborn) :
    s.links.cell cb = none ∧ cb ∉ s.refs ∧ s.starts cb = 0 ∧ cb ∉ s.queue ∧
      s.current ≠ some cb := by
  obtain ⟨hcell, hr, hs⟩ := (h.callback cb).unborn hp
  refine ⟨hcell, hr, hs, fun hmem => ?_, fun hc => ?_⟩
  · obtain ⟨-, x, hx, -⟩ := (h.callback cb).queued hmem
    simp [hcell] at hx
  · obtain ⟨-, -, x, hx, -⟩ := (h.callback cb).current hc
    simp [hcell] at hx

theorem idle_deleter (h : s.Inv) (hi : s.idle t = true) (hd : s.deleter = some t) :
    s.deleted = true := by
  by_contra hn
  obtain ⟨f, hf, hl⟩ := (h.stack t).deletes hd (by simpa using hn)
  rw [State.idle, hf] at hi
  cases f <;> simp_all [Frame.deletes, Frame.runs]

/-- The stack of a thread that makes no call. -/
theorem StackOk.stay {fs : List (Frame C K)} (h : s.StackOk t fs) (hk : ∀ g ∈ fs, Keeps s s₁ g)
    (hw : s₁.winner = s.winner) (hwins : s₁.wins = s.wins) (hc : s₁.current = s.current)
    (hh : s₁.holder = s.holder) (hd : s₁.deleter = s.deleter) (hn : s₁.deleted = s.deleted) :
    s₁.StackOk t fs :=
  h.keeps hk (by rw [hw]) (fun _ => hwins) (fun _ => hc) (fun hh' => hh ▸ hh')
    fun hd' hn' => ⟨hd ▸ hd', hn ▸ hn'⟩

/-- A call still has its token or its source when one is dropped that no call goes through. -/
theorem Unused.mem_erase [DecidableEq K] {ks : List K} (h : s.Unused k) (hg : g ∈ s.stack u)
    (j : K) (hj : g.handle = some j) (hmem : j ∈ ks) : j ∈ ks.erase k := by
  have hne : j ≠ k := by
    rintro rfl
    exact h u (List.mem_map.2 ⟨g, hg, hj⟩)
  exact (List.mem_erase_of_ne hne).2 hmem

/-- A callback that was just allocated. -/
theorem Shared.blank (h : s.Shared) (s₁ : State T C K) (hp : s.phase cb = .unborn)
    (hcell : s₁.links.cell cb = some ⟨none, none, ⟨none, false, false⟩⟩)
    (hph : s₁.phase cb = .constructing t) (hq : s₁.queue = s.queue)
    (hc : s₁.current = s.current) (hs : s₁.starts = s.starts) :
    s₁.Blank cb 0 ∧ s₁.CallbackOk cb := by
  obtain ⟨-, -, hzero, hmem, hcur⟩ := h.not_mem_of_unborn hp
  refine ⟨⟨hs ▸ hzero, hq ▸ hmem, hc ▸ hcur, _, hcell, rfl, rfl⟩, ?_⟩
  constructor
  · exact fun hmem' => absurd (hq ▸ hmem') hmem
  · exact fun hcur' => absurd (hc ▸ hcur') hcur
  · exact fun hu => by simp [hph] at hu
  · exact fun ha => by simp [hph] at ha
  · exact fun hd => by simp [hph] at hd
  · rw [hs, hzero]
    exact Nat.zero_le 1
  · intro x hx hf
    obtain rfl := Option.some.inj (hcell.symm.trans hx)
    simp at hf

section Events

variable [DecidableEq T]

/-- A thread makes a call, or a token or a source comes or goes. -/
theorem Inv.of_event {fs : List (Frame C K)} (h : s.Inv) (hshared : s₁.Shared)
    (hst : s₁.stack = s.stack) (hel : Elsewhere s s₁ t)
    (hk : ∀ u, ∀ g ∈ s.stack u, Keeps s s₁ g) (hown : s₁.StackOk t fs) :
    (s₁.goto t fs).Inv where
  shared := hshared.goto fs
  stack u := by
    by_cases hu : u = t
    · subst hu
      simpa [State.goto] using hown.goto
    · have hsu : (s₁.goto t fs).stack u = s.stack u := by simp [State.goto, hu, hst]
      have hok : s₁.StackOk u (s.stack u) :=
        (h.stack u).keeps (hk u) (hel.winner u hu) (hel.wins u hu) (hel.current u hu)
          (hel.holder u hu) (hel.deleter u hu)
      exact hsu ▸ hok.goto

theorem Inv.requestStop (h : s.Inv) (hi : s.idle t = true) (hk : k ∈ s.sources) :
    (s.goto t (.signal k none :: s.stack t)).Inv := by
  apply h.of_event h.shared rfl (.of_eq rfl rfl rfl rfl rfl rfl) fun _ _ _ => .refl
  refine (h.stack t).push hi (fun _ _ => .refl) hk ?_ rfl rfl rfl rfl rfl ?_
  · exact fun cb hcb => by cases hcb
  · exact fun hd hn => by simp [idle_deleter h hi hd] at hn

theorem goto_stack (s : State T C K) (t : T) : s.goto t (s.stack t) = s := by
  simp [State.goto]

/-- A token or a source comes or goes. -/
theorem Inv.count {w : ℕ} {tokens sources : List K} {deleter : Option T}
    {fs : List (Frame C K)} (h : s.Inv) (s₁ : State T C K)
    (hs₁ : s₁ = { s with tokens, sources, deleter, word := w })
    (hsource : ∀ u, ∀ g ∈ s.stack u, ∀ k, g.handle = some k → k ∈ s.sources → k ∈ sources)
    (htoken : ∀ u, ∀ g ∈ s.stack u, ∀ k, g.handle = some k → k ∈ s.tokens → k ∈ tokens)
    (hword : w = pack s.winner.isSome s.holder.isSome (tokens.length + s.refs.length)
      sources.length)
    (hlen : tokens.length + s.refs.length < 2 ^ 31) (hlen' : sources.length < 2 ^ 31)
    (hnone : s.deleter = none) (hdel' : deleter = none ∨ deleter = some t)
    (hdel : deleter = none ↔ ¬ (tokens = [] ∧ sources = [] ∧ s.refs = []))
    (hown : (∀ g ∈ s.stack t, Keeps s s₁ g) → s₁.StackOk t fs) : (s₁.goto t fs).Inv := by
  have hk : ∀ u, ∀ g ∈ s.stack u, Keeps s s₁ g := by
    subst hs₁
    intro u g hg
    refine .of_eq rfl rfl rfl rfl rfl rfl rfl rfl (hsource u g hg) (htoken u g hg)
      (fun _ => ⟨rfl, rfl⟩) (fun _ => id) fun hd => ?_
    exact absurd hnone (((h.stack u).holds g hg).deleter_ne_none hd)
  have hdeleted : s.deleted = false := by
    by_contra hd
    exact h.shared.deleted (by simpa using hd) hnone
  subst hs₁
  apply h.of_event
  · exact h.shared.of_eq rfl rfl rfl rfl rfl rfl rfl rfl hword hlen hlen' h.shared.thread id hdel
      (fun hd => by simp [hdeleted] at hd) h.shared.wins h.shared.done
  · rfl
  · refine ⟨fun _ _ => Iff.rfl, fun _ _ _ => rfl, fun _ _ _ => rfl, fun _ _ => id, ?_⟩
    intro u hu hd
    rcases hdel' with rfl | rfl
    · cases hd
    · exact absurd (Option.some.inj hd).symm hu
  · exact hk
  · exact hown (hk t)

/-- A token or a source is copied, or a token is got from a source. -/
theorem Inv.copy {w : ℕ} {tokens sources : List K} (h : s.Inv)
    (href : ¬ (s.tokens = [] ∧ s.sources = [] ∧ s.refs = []))
    (hsources : ∀ k, k ∈ s.sources → k ∈ sources) (htokens : ∀ k, k ∈ s.tokens → k ∈ tokens)
    (hne : ¬ (tokens = [] ∧ sources = []))
    (hword : w = pack s.winner.isSome s.holder.isSome (tokens.length + s.refs.length)
      sources.length)
    (hlen : tokens.length + s.refs.length < 2 ^ 31) (hlen' : sources.length < 2 ^ 31) (t : T) :
    ({ s with word := w, tokens, sources } : State T C K).Inv := by
  have hnone : s.deleter = none := h.shared.deleter.2 href
  rw [← goto_stack { s with word := w, tokens, sources } t]
  apply h.count { s with word := w, tokens, sources } rfl
  · exact fun _ _ _ k _ => hsources k
  · exact fun _ _ _ k _ => htokens k
  · exact hword
  · exact hlen
  · exact hlen'
  · exact hnone
  · exact .inl hnone
  · refine ⟨fun _ hnil => hne ⟨hnil.1, hnil.2.1⟩, fun _ => hnone⟩
  · exact fun hk => (h.stack t).stay hk rfl rfl rfl rfl rfl rfl

/-- A token or a source is dropped, and the state with it if that was the last reference. -/
theorem Inv.drop {w least : ℕ} {tokens sources : List K} (h : s.Inv) (hi : s.idle t = true)
    (href : ¬ (s.tokens = [] ∧ s.sources = [] ∧ s.refs = []))
    (hsource : ∀ u, ∀ g ∈ s.stack u, ∀ k, g.handle = some k → k ∈ s.sources → k ∈ sources)
    (htoken : ∀ u, ∀ g ∈ s.stack u, ∀ k, g.handle = some k → k ∈ s.tokens → k ∈ tokens)
    (hword : w = pack s.winner.isSome s.holder.isSome (tokens.length + s.refs.length)
      sources.length)
    (hlen : tokens.length + s.refs.length < 2 ^ 31) (hlen' : sources.length < 2 ^ 31)
    (hleast : s.word < least ↔ tokens.length + s.refs.length = 0 ∧ sources.length = 0) :
    ({ s with word := w, tokens, sources }.release t s.word least none (s.stack t)).Inv := by
  have hnone : s.deleter = none := h.shared.deleter.2 href
  have hnil : tokens.length + s.refs.length = 0 ∧ sources.length = 0 ↔
      tokens = [] ∧ sources = [] ∧ s.refs = [] := by
    simp only [Nat.add_eq_zero_iff, List.length_eq_zero_iff]
    tauto
  simp only [State.release]
  split
  · rename_i hlt
    have hempty := hnil.1 (hleast.1 hlt)
    apply h.count { s with word := w, tokens, sources, deleter := some t } rfl hsource htoken
      hword hlen hlen' hnone (.inr rfl)
    · exact ⟨fun hd => by simp at hd, fun hne => absurd hempty hne⟩
    · intro hk
      refine (h.stack t).push hi hk ?_ ?_ rfl rfl rfl rfl rfl ?_
      · refine ⟨rfl, h.shared.not_deleted href, fun cb hcb => by cases hcb⟩
      · exact fun cb hcb => by cases hcb
      · exact fun _ _ => rfl
  · rename_i hlt
    have hrest : ¬ (tokens = [] ∧ sources = [] ∧ s.refs = []) :=
      fun hempty => hlt (hleast.2 (hnil.2 hempty))
    apply h.count { s with word := w, tokens, sources } rfl hsource htoken hword hlen hlen'
      hnone (.inl hnone)
    · exact ⟨fun _ => hrest, fun _ => hnone⟩
    · exact fun hk => (h.stack t).stay hk rfl rfl rfl rfl rfl rfl

/-- The phase of a callback changes, or its memory, when no call is about it yet. -/
theorem Inv.begin {links : Intrusive.Links C Callback} {phase : C → Phase T}
    {tokens : List K} {refs : List C} (h : s.Inv) (s₁ : State T C K) (hi : s.idle t = true)
    (hs₁ : s₁ = { s with links, phase, tokens, refs })
    (hcell : ∀ c, c ≠ cb → links.cell c = s.links.cell c)
    (hphase : ∀ c, c ≠ cb → phase c = s.phase c)
    (hrefs : ∀ c, c ≠ cb → (c ∈ refs ↔ c ∈ s.refs))
    (hp : s.phase cb = .unborn ∨ s.phase cb = .alive)
    (hcur : s.current = some cb → links = s.links) (hrep : links.Represents s.queue)
    (hok : s₁.CallbackOk cb)
    (htoken : ∀ u, ∀ g ∈ s.stack u, ∀ k, g.handle = some k → k ∈ s.tokens → k ∈ tokens)
    (hlen : tokens.length + refs.length = s.tokens.length + s.refs.length)
    (hnodup : refs.Nodup)
    (hnil : tokens = [] ∧ s.sources = [] ∧ refs = [] ↔
      s.tokens = [] ∧ s.sources = [] ∧ s.refs = [])
    (ho : f.object = some cb) (hwin : f.winning = false) (hf : f.Holds s₁ t) :
    (s₁.goto t (f :: s.stack t)).Inv := by
  have hobj : ∀ u, ∀ g ∈ s.stack u, g.object ≠ some cb := by
    intro u g hg hgcb
    have hph := ((h.stack u).holds g hg).phase hgcb
    rcases hp with hp | hp <;> simp [hp] at hph
  have hko : ∀ c, c ≠ cb → KeepsObject s s₁ c := by
    intro c hc
    subst hs₁
    exact .of_cell (hcell c hc) Iff.rfl Iff.rfl (fun _ _ => id) rfl (hphase c hc) (hrefs c hc)
  have hok' : ∀ c, s₁.CallbackOk c := by
    intro c
    by_cases hc : c = cb
    · exact hc ▸ hok
    · subst hs₁
      exact (h.shared.callback c).of_data (hko c hc) (by rw [hcell c hc]) id id rfl id
  have hk : ∀ u, ∀ g ∈ s.stack u, Keeps s s₁ g := by
    subst hs₁
    intro u g hg
    refine ⟨fun _ _ => id, htoken u g hg, fun _ => ⟨rfl, rfl, rfl⟩, fun _ => id,
      fun _ => .inl ⟨rfl, rfl, rfl, id, fun c hc => ⟨rfl, fun x hx => ⟨x, ?_, rfl, rfl⟩⟩⟩,
      fun c hgc => hko c fun hccb => hobj u g hg (hccb ▸ hgc), fun _ => ⟨rfl, rfl⟩, ?_⟩
    · by_cases hccb : c = cb
      · exact (hcur (hccb ▸ hc)) ▸ hx
      · exact (hcell c hccb).trans hx
    · intro c v hc
      by_cases hccb : c = cb
      · rw [hccb] at hc
        rcases hp with hp | hp <;> simp [hp] at hc
      · rwa [← hphase c hccb] at hc
  subst hs₁
  apply h.of_event
  · exact ⟨hlen ▸ h.shared.word, hlen ▸ h.shared.tokens, h.shared.sources, hrep, hok',
      h.shared.thread, hnodup, h.shared.deleter.trans (not_congr hnil.symm), h.shared.deleted,
      h.shared.wins, h.shared.done, h.shared.flags⟩
  · rfl
  · exact .of_eq rfl rfl rfl rfl rfl rfl
  · exact hk
  · refine (h.stack t).push hi (hk t) hf ?_ rfl rfl hwin rfl rfl ?_
    · intro c hc g hg
      obtain rfl : cb = c := Option.some.inj (ho.symm.trans hc)
      exact hobj t g hg
    · exact fun hd hn => by simp [idle_deleter h hi hd] at hn

section Callbacks

variable [DecidableEq C]

theorem Inv.construct [DecidableEq K] {tk : Arg K} (h : s.Inv) (hi : s.idle t = true)
    (hp : s.phase cb = .unborn) (hfits : s.Fits tk) : (s.construct t tk cb).Inv := by
  obtain ⟨-, hr, -, hmem, hcur⟩ := h.shared.not_mem_of_unborn hp
  have hrep := h.shared.links.setCell_of_notMem hmem
    (some ⟨none, none, ⟨none, false, false⟩⟩ : Option (Intrusive.Cell C Callback))
  cases tk with
  | copied k =>
    obtain ⟨hblank, hok⟩ := h.shared.blank { s with
      links := s.links.setCell cb (some ⟨none, none, ⟨none, false, false⟩⟩)
      phase := Function.update s.phase cb (.constructing t) } hp
      (Intrusive.Links.cell_setCell ..) (Function.update_self ..) rfl rfl rfl
    apply h.begin { s with
      links := s.links.setCell cb (some ⟨none, none, ⟨none, false, false⟩⟩)
      phase := Function.update s.phase cb (.constructing t) } hi rfl
    · exact fun c hc => Intrusive.Links.cell_setCell_of_ne _ _ hc
    · exact fun c hc => Function.update_of_ne hc ..
    · exact fun _ _ => Iff.rfl
    · exact .inl hp
    · exact fun hc => absurd hc hcur
    · exact hrep
    · exact hok
    · exact fun _ _ _ _ _ => id
    · rfl
    · exact h.shared.refs
    · rfl
    · rfl
    · rfl
    · exact ⟨Function.update_self .., ⟨hfits, hr⟩, hblank⟩
  | moved k =>
    obtain ⟨hk, hunused⟩ := hfits
    obtain ⟨hblank, hok⟩ := h.shared.blank { s with
      links := s.links.setCell cb (some ⟨none, none, ⟨none, false, false⟩⟩)
      phase := Function.update s.phase cb (.constructing t)
      tokens := s.tokens.erase k
      refs := cb :: s.refs } hp
      (Intrusive.Links.cell_setCell ..) (Function.update_self ..) rfl rfl rfl
    apply h.begin { s with
      links := s.links.setCell cb (some ⟨none, none, ⟨none, false, false⟩⟩)
      phase := Function.update s.phase cb (.constructing t)
      tokens := s.tokens.erase k
      refs := cb :: s.refs } hi rfl
    · exact fun c hc => Intrusive.Links.cell_setCell_of_ne _ _ hc
    · exact fun c hc => Function.update_of_ne hc ..
    · exact fun c hc => by simp [hc]
    · exact .inl hp
    · exact fun hc => absurd hc hcur
    · exact hrep
    · exact hok
    · exact fun _ _ => hunused.mem_erase
    · have hpos : 0 < s.tokens.length := List.length_pos_of_mem hk
      rw [List.length_erase_of_mem hk, List.length_cons]
      omega
    · exact List.nodup_cons.2 ⟨hr, h.shared.refs⟩
    · exact ⟨fun hnil => by simp at hnil, fun hnil => by simp [hnil.1] at hk⟩
    · rfl
    · rfl
    · exact ⟨Function.update_self .., List.mem_cons_self, hblank⟩

theorem Inv.destroy {x : Intrusive.Cell C Callback} (h : s.Inv) (hi : s.idle t = true)
    (hp : s.phase cb = .alive) (hx : s.links.cell cb = some x) :
    ({ s with phase := Function.update s.phase cb (.destroying t) }.goto t
      ((if x.data.state then .lockToRemove cb none else .destroyed cb) :: s.stack t)).Inv := by
  obtain ⟨y, hy, hreg, hloose⟩ := (h.shared.callback cb).alive hp
  obtain rfl : x = y := Option.some.inj (hx.symm.trans hy)
  have hbegin : ∀ f : Frame C K, f.object = some cb → f.winning = false →
      f.Holds { s with phase := Function.update s.phase cb (.destroying t) } t →
      ({ s with phase := Function.update s.phase cb (.destroying t) }.goto t
        (f :: s.stack t)).Inv := by
    intro f ho hwin hf
    apply h.begin { s with phase := Function.update s.phase cb (.destroying t) } hi rfl
    · exact fun _ _ => rfl
    · exact fun c hc => Function.update_of_ne hc ..
    · exact fun _ _ => Iff.rfl
    · exact .inr hp
    · exact fun _ => rfl
    · exact h.shared.links
    · exact (h.shared.callback cb).of_busy (.inr (Function.update_self ..)) rfl rfl rfl rfl rfl
    · exact fun _ _ _ _ _ => id
    · rfl
    · exact h.shared.refs
    · rfl
    · exact ho
    · exact hwin
    · exact hf
  cases hs : x.data.state with
  | true =>
    obtain ⟨hr, z, hz⟩ := hreg hs
    exact hbegin _ rfl rfl ⟨Function.update_self .., hr, z, hz.of_eq rfl rfl rfl rfl⟩
  | false =>
    obtain ⟨hr, hl⟩ := hloose hs
    exact hbegin _ rfl rfl ⟨Function.update_self .., hr, hl.cell, hl.queue, hl.current⟩

end Callbacks

end Events

/-- One more token and one more source still fit in their 31 bits. -/
def HasRoom (s : State T C K) : Prop :=
  s.tokens.length + s.refs.length + 1 < 2 ^ 31 ∧ s.sources.length + 1 < 2 ^ 31

instance instDecidableHasRoom (s : State T C K) : Decidable s.HasRoom :=
  inferInstanceAs (Decidable (_ ∧ _))

theorem Inv.init : (init k : State T C K).Inv where
  shared := by
    constructor
    · simp [State.init, pack]
    · simp [State.init]
    · simp [State.init]
    · exact .nil rfl
    · intro cb
      constructor <;> simp [State.init]
    all_goals simp [State.init]
  stack _ := by
    constructor <;> simp [State.init]

section Counts

variable [DecidableEq T]

/-- A token is made from a token or a source. -/
theorem Inv.addToken (h : s.Inv) (hroom : s.HasRoom) (new : K)
    (href : ¬ (s.tokens = [] ∧ s.sources = [] ∧ s.refs = [])) (t : T) :
    State.Inv { s with word := add64 s.word tokenRefIncrement, tokens := new :: s.tokens } := by
  have hlen := h.shared.sources
  apply h.copy href (fun _ => id) (fun _ => List.mem_cons_of_mem new) (by simp) _ _ hlen t
  · rw [h.shared.word, pack_add_token hroom.1 hlen, List.length_cons, Nat.add_right_comm]
  · rw [List.length_cons, Nat.add_right_comm]
    exact hroom.1

/-- A source is made from a source. -/
theorem Inv.addSource (h : s.Inv) (hroom : s.HasRoom) (new : K)
    (href : ¬ (s.tokens = [] ∧ s.sources = [] ∧ s.refs = [])) (t : T) :
    State.Inv { s with word := add64 s.word sourceRefIncrement, sources := new :: s.sources } := by
  have hlen := h.shared.tokens
  apply h.copy href (fun _ => List.mem_cons_of_mem new) (fun _ => id) (by simp) _ hlen hroom.2 t
  rw [h.shared.word, pack_add_source hlen hroom.2, List.length_cons]

variable [DecidableEq K]

theorem Inv.dropToken (h : s.Inv) (hi : s.idle t = true) (hk : k ∈ s.tokens)
    (hunused : s.Unused k) (href : ¬ (s.tokens = [] ∧ s.sources = [] ∧ s.refs = [])) :
    ({ s with word := sub64 s.word tokenRefIncrement, tokens := s.tokens.erase k }.release t
      s.word (tokenRefIncrement + tokenRefIncrement) none (s.stack t)).Inv := by
  have hcount : s.tokens.length + s.refs.length =
      (s.tokens.erase k).length + s.refs.length + 1 := by
    have hpos : 0 < s.tokens.length := List.length_pos_of_mem hk
    rw [List.length_erase_of_mem hk]
    omega
  have hword := h.shared.word
  have hlen := h.shared.tokens
  rw [hcount] at hword hlen
  apply h.drop hi href
  · exact fun _ _ _ _ _ => id
  · exact fun _ _ => hunused.mem_erase
  · rw [hword, pack_sub_token (Nat.lt_of_succ_lt hlen) h.shared.sources]
  · exact Nat.lt_of_succ_lt hlen
  · exact h.shared.sources
  · rw [hword, pack_lt_two_tokens]

theorem Inv.dropSource (h : s.Inv) (hi : s.idle t = true) (hk : k ∈ s.sources)
    (hunused : s.Unused k) (href : ¬ (s.tokens = [] ∧ s.sources = [] ∧ s.refs = [])) :
    ({ s with word := sub64 s.word sourceRefIncrement, sources := s.sources.erase k }.release t
      s.word (tokenRefIncrement + sourceRefIncrement) none (s.stack t)).Inv := by
  have hcount : s.sources.length = (s.sources.erase k).length + 1 := by
    have hpos : 0 < s.sources.length := List.length_pos_of_mem hk
    rw [List.length_erase_of_mem hk]
    omega
  have hword := h.shared.word
  have hlen := h.shared.sources
  rw [hcount] at hword hlen
  apply h.drop hi href
  · exact fun _ _ => hunused.mem_erase
  · exact fun _ _ _ _ _ => id
  · rw [hword, pack_sub_source h.shared.tokens (Nat.lt_of_succ_lt hlen)]
  · exact h.shared.tokens
  · exact Nat.lt_of_succ_lt hlen
  · rw [hword, pack_lt_token_source]

end Counts

section Attempt

variable [Fintype T] [DecidableEq T] [DecidableEq C] [DecidableEq K] {e : Event T C K}
  {r : Option (State T C K)}

/-- No event is undefined behaviour, and every event keeps the invariant. -/
theorem Inv.attempt (h : s.Inv) (hroom : s.HasRoom) (he : s.attempt e = some r) :
    ∃ s', r = some s' ∧ s'.Inv := by
  have htoken : ∀ k ∈ s.tokens, ¬ (s.tokens = [] ∧ s.sources = [] ∧ s.refs = []) :=
    fun k hk hnil => by simp [hnil.1] at hk
  have hsource : ∀ k ∈ s.sources, ¬ (s.tokens = [] ∧ s.sources = [] ∧ s.refs = []) :=
    fun k hk hnil => by simp [hnil.2.1] at hk
  cases e with
  | requestStop t k =>
    obtain ⟨⟨hi, hk⟩, hr⟩ := Option.ite_none_right_eq_some.1 he
    exact ⟨_, (Option.some.inj hr).symm, h.requestStop hi hk⟩
  | construct t tk cb =>
    obtain ⟨⟨hi, hp, hfits⟩, hr⟩ := Option.ite_none_right_eq_some.1 he
    exact ⟨_, (Option.some.inj hr).symm, h.construct hi hp hfits⟩
  | destroy t cb =>
    obtain ⟨⟨hi, hp⟩, hr⟩ := Option.ite_none_right_eq_some.1 he
    obtain ⟨x, hx, -⟩ := (h.shared.callback cb).alive hp
    rw [hx, Option.map_some] at hr
    exact ⟨_, (Option.some.inj hr).symm, h.destroy hi hp hx⟩
  | copyToken t k new =>
    obtain ⟨⟨-, hk, -⟩, hr⟩ := Option.ite_none_right_eq_some.1 he
    have href := htoken k hk
    rw [load_eq (h.shared.not_deleted href), Option.map_some] at hr
    exact ⟨_, (Option.some.inj hr).symm, h.addToken hroom new href t⟩
  | getToken t k new =>
    obtain ⟨⟨-, hk, -⟩, hr⟩ := Option.ite_none_right_eq_some.1 he
    have href := hsource k hk
    rw [load_eq (h.shared.not_deleted href), Option.map_some] at hr
    exact ⟨_, (Option.some.inj hr).symm, h.addToken hroom new href t⟩
  | copySource t k new =>
    obtain ⟨⟨-, hk, -⟩, hr⟩ := Option.ite_none_right_eq_some.1 he
    have href := hsource k hk
    rw [load_eq (h.shared.not_deleted href), Option.map_some] at hr
    exact ⟨_, (Option.some.inj hr).symm, h.addSource hroom new href t⟩
  | dropToken t k =>
    obtain ⟨⟨hi, hk, hunused⟩, hr⟩ := Option.ite_none_right_eq_some.1 he
    have href := htoken k hk
    rw [load_eq (h.shared.not_deleted href), Option.map_some] at hr
    exact ⟨_, (Option.some.inj hr).symm, h.dropToken hi hk hunused href⟩
  | dropSource t k =>
    obtain ⟨⟨hi, hk, hunused⟩, hr⟩ := Option.ite_none_right_eq_some.1 he
    have href := hsource k hk
    rw [load_eq (h.shared.not_deleted href), Option.map_some] at hr
    exact ⟨_, (Option.some.inj hr).symm, h.dropSource hi hk hunused href⟩
  | go t spurious =>
    simp only [State.attempt] at he
    split at he
    · cases he
    · rename_i f rest hs
      obtain ⟨s', hs', hinv⟩ := h.advance spurious hroom.1 hs
      exact ⟨s', (Option.some.inj he).symm.trans hs', hinv⟩

/-- The state after an event, as long as there is room. -/
def stepWithRoom (s : State T C K) (e : Event T C K) : Option (State T C K) :=
  if s.HasRoom then s.step e else none

/-- A run from a new `stop_source`, `k`, leads to the state. -/
def Reachable (k : K) (s : State T C K) : Prop :=
  ∃ es, Steps.run stepWithRoom (State.init k) es = some s

theorem Inv.step {s' : State T C K} (h : s.Inv) (he : s.stepWithRoom e = some s') : s'.Inv := by
  obtain ⟨hroom, he⟩ := Option.ite_none_right_eq_some.1 he
  obtain ⟨s₁, hs₁, hinv⟩ := h.attempt hroom (Option.join_eq_some_iff.1 he)
  exact Option.some.inj hs₁ ▸ hinv

theorem Reachable.inv (h : Reachable k s) : s.Inv := by
  obtain ⟨es, hrun⟩ := h
  exact Steps.invariant_of_step (fun _ _ _ => Inv.step) Inv.init hrun

end Attempt

end State

end Jkl.StopState
