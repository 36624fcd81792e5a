import Jkl.Async.StopStateSteps

/-! The steps of the constructor and of the destructor of a `stop_callback`. -/
namespace Jkl.StopState.State

variable {T C K : Type} {s s₁ : State T C K} {t u : T} {f g : Frame C K} {rest : List (Frame C K)}
  {cb : C}

/-- A callback that its constructor has not registered. -/
theorem Blank.callbackOk {n : ℕ} (hb : s₁.Blank cb n) (hn : n ≤ 1) (hp : s₁.phase cb = .alive)
    (hr : cb ∉ s₁.refs) : s₁.CallbackOk cb := by
  obtain ⟨x, hx, -, hdata⟩ := hb.cell
  constructor
  · exact fun hmem => absurd hmem hb.queue
  · exact fun hc => absurd hc hb.current
  · intro hu
    simp [hp] at hu
  · exact fun _ => ⟨x, hx, fun hs => by simp [hdata] at hs,
      fun _ => ⟨hr, ⟨x, hx⟩, hb.queue, hb.current⟩⟩
  · intro hd
    simp [hp] at hd
  · exact hb.starts.trans_le hn
  · intro y hy hf
    obtain rfl : x = y := Option.some.inj (hx.symm.trans hy)
    simp [hdata] at hf

/-- A callback that its constructor or its destructor is busy with. -/
theorem CallbackOk.of_busy (h : s.CallbackOk cb)
    (hp : s₁.phase cb = .constructing t ∨ s₁.phase cb = .destroying t)
    (hcell : (s₁.links.cell cb).map Intrusive.Cell.data =
      (s.links.cell cb).map Intrusive.Cell.data)
    (hq : s₁.queue = s.queue) (hc : s₁.current = s.current)
    (hs : s₁.starts cb = s.starts cb) (ht : s₁.signallingThread = s.signallingThread) :
    s₁.CallbackOk cb := by
  have hback : ∀ x, s.links.cell cb = some x → ∃ y, s₁.links.cell cb = some y ∧
      y.data = x.data := by
    intro x hx
    rw [hx] at hcell
    simpa using hcell
  constructor
  · intro hmem
    obtain ⟨hz, x, hx, hr, hf⟩ := h.queued (hq ▸ hmem)
    obtain ⟨y, hy, hd⟩ := hback x hx
    exact ⟨hs.trans hz, y, hy, hd ▸ hr, hd ▸ hf⟩
  · intro hcur
    obtain ⟨hnot, hset, x, hx, hf⟩ := h.current (hc ▸ hcur)
    obtain ⟨y, hy, hd⟩ := hback x hx
    exact ⟨hq ▸ hnot, ht ▸ hset, y, hy, hd ▸ hf⟩
  · exact fun hu => by simp [hu] at hp
  · exact fun ha => by simp [ha] at hp
  · exact fun hd => by simp [hd] at hp
  · exact hs ▸ h.starts
  · intro y hy hf
    obtain ⟨x, hx, hd⟩ : ∃ x, s.links.cell cb = some x ∧ x.data = y.data := by
      rw [hy] at hcell
      simpa using hcell.symm
    obtain ⟨hone, hset⟩ := h.finished x hx (hd ▸ hf)
    exact ⟨hs.trans hone, ht ▸ hset⟩

theorem Shared.registered (h : s.Shared) (hmem : cb ∈ s.queue) : ∃ x, s.Registered cb x := by
  obtain ⟨-, x, hx, hr, -⟩ := (h.callback cb).queued hmem
  exact ⟨x, hx, .inl hmem, fun hn => absurd hmem hn, fun n hn => by simp [hr] at hn⟩

theorem Registered.of_eq {x : Intrusive.Cell C Callback} (h : s.Registered cb x)
    (hl : s₁.links = s.links) (hq : s₁.queue = s.queue) (hc : s₁.current = s.current)
    (hf : s₁.flags = s.flags) : s₁.Registered cb x :=
  ⟨hl ▸ h.cell, hq ▸ hc ▸ h.somewhere, hq ▸ h.prev, hc ▸ hf ▸ h.isRemoved⟩

section Object

variable [DecidableEq T] {tk : Arg K}

/-- A constructor or a destructor, with the lock, changes what the list holds of its own
callback. -/
theorem Inv.relink {links : Intrusive.Links C Callback} {q : List C} {fs : List (Frame C K)}
    (h : s.Inv) (s₁ : State T C K) (hs : s.stack t = f :: rest) (ho : f.object = some cb)
    (hlock : f.locked = true) (hs₁ : s₁ = { s with links, queue := q })
    (hrep : links.Represents q)
    (hkept : Intrusive.Links.Kept (cb :: s.queue) s.links links)
    (hq : ∀ c, c ≠ cb → (c ∈ q ↔ c ∈ s.queue))
    (hnil : s.winner ≠ none → s.queue = [] → q = []) (hok : s₁.CallbackOk cb)
    (hown : s.StackOk t (f :: rest) → (∀ g ∈ rest, Keeps s s₁ g) → s₁.StackOk t fs) :
    (s₁.goto t fs).Inv := by
  have hout : ∀ c, c ≠ cb → c ∉ s.queue → links.cell c = s.links.cell c := by
    intro c hc hmem
    exact hkept.outside c (List.not_mem_cons_of_ne_of_not_mem hc hmem)
  have hcell : ∀ c x, s.links.cell c = some x → ∃ y, links.cell c = some y ∧
      y.data = x.data := by
    intro c x hx
    simpa [hx] using hkept.data c
  have hko : ∀ c, c ≠ cb → KeepsObject s s₁ c := by
    intro c hc
    subst hs₁
    constructor
    · rfl
    · rfl
    · exact fun hmem => (hq c hc).not.2 hmem
    · exact fun n hb => ⟨hb.starts, (hq c hc).not.2 hb.queue, hb.current,
        (hout c hc hb.queue).symm ▸ hb.cell⟩
    · exact fun hl => ⟨(hout c hc hl.queue).symm ▸ hl.cell, (hq c hc).not.2 hl.queue,
        hl.current⟩
    · intro x hx
      obtain ⟨y, hy, hd⟩ := hcell c x hx.cell
      refine ⟨y, hy, ?_, ?_, fun n hn => hx.isRemoved n (hd ▸ hn)⟩
      · rw [hq c hc, hd]
        exact hx.somewhere
      · intro hmem
        have hmem' : c ∉ s.queue := (hq c hc).not.1 hmem
        obtain rfl : y = x :=
          Option.some.inj (hy.symm.trans ((hout c hc hmem').trans hx.cell))
        exact hx.prev hmem'
    · intro x hx
      obtain ⟨y, hy, hd⟩ := hcell c x hx
      exact ⟨y, hy, by rw [hd]⟩
  have hok' : ∀ c, s₁.CallbackOk c := by
    intro c
    by_cases hc : c = cb
    · exact hc ▸ hok
    · subst hs₁
      exact (h.shared.callback c).of_data (hko c hc) (hkept.data c) (hq c hc).1 id rfl id
  have hh : s.holder = some t := (h.top hs).holder hlock
  have hdone : s.wins ≠ 0 → q = [] ∧ s.current = none := fun hwins =>
    ⟨hnil (mt h.shared.wins hwins) (h.shared.done hwins).1, (h.shared.done hwins).2⟩
  subst hs₁
  apply h.of_step hs
  · exact ⟨h.shared.word, h.shared.tokens, h.shared.sources, hrep, hok', h.shared.thread,
      h.shared.refs, h.shared.deleter, h.shared.deleted, h.shared.wins, hdone, h.shared.flags⟩
  · rfl
  · exact .of_eq rfl rfl rfl rfl rfl rfl
  · intro u g hg
    refine ⟨fun _ _ => id, fun _ _ => id, ?_, fun _ => id, fun hw => .inl ?_, ?_,
      fun _ => ⟨rfl, rfl⟩, fun _ _ => id⟩
    · intro hl
      simp [hg.locked_eq_false (.inr hh)] at hl
    · have hwin : s.winner = some u := hg.holds.winner hw
      refine ⟨rfl, rfl, rfl, hnil (by simp [hwin]), fun c hc => ⟨rfl, fun x hx => ?_⟩⟩
      obtain ⟨y, hy, hd⟩ := hcell c x hx
      exact ⟨y, hy, by rw [hd], by rw [hd]⟩
    · exact fun c hgc => hko c (hg.object_ne (h.top hs) ho hgc)
  · exact hown

/-- A constructor or a destructor changes the state of its own callback, and the count of the
references. -/
theorem Inv.touch {links : Intrusive.Links C Callback} {w : ℕ} {tokens : List K}
    {phase : C → Phase T} {holder deleter : Option T} {refs : List C} {starts : C → ℕ}
    {fs : List (Frame C K)} (h : s.Inv) (s₁ : State T C K) (hs : s.stack t = f :: rest)
    (ho : f.object = some cb)
    (hs₁ : s₁ = { s with links, tokens, phase, holder, deleter, refs, starts, word := w })
    (hcell : ∀ c, c ≠ cb → links.cell c = s.links.cell c)
    (hphase : ∀ c, c ≠ cb → phase c = s.phase c)
    (hstarts : ∀ c, c ≠ cb → starts c = s.starts c)
    (hrefs : ∀ c, c ≠ cb → (c ∈ refs ↔ c ∈ s.refs))
    (hgone : s.phase cb = .constructing t ∨ phase cb = .dead ∨ phase cb = s.phase cb)
    (hserved : s.current = some cb → starts cb = s.starts cb ∧ ∀ x, s.links.cell cb = some x →
      ∃ y, links.cell cb = some y ∧ y.data.isRemoved = x.data.isRemoved ∧
        y.data.callbackFinishedExecuting = x.data.callbackFinishedExecuting)
    (hrep : links.Represents s.queue) (hok : s₁.CallbackOk cb)
    (hword : w = pack s.winner.isSome holder.isSome (tokens.length + refs.length)
      s.sources.length)
    (hlen : tokens.length + refs.length < 2 ^ 31) (hnodup : refs.Nodup)
    (htokens : ∀ k, k ∈ s.tokens → k ∈ tokens)
    (hholder : holder = s.holder ∨ s.holder = some t ∧ holder = none)
    (hdel : deleter = none ↔ ¬ (tokens = [] ∧ s.sources = [] ∧ refs = []))
    (hdel' : deleter = s.deleter ∨ s.deleter = none ∧ deleter = some t)
    (hown : s.StackOk t (f :: rest) → (∀ g ∈ rest, Keeps s s₁ g) → s₁.StackOk t fs) :
    (s₁.goto t fs).Inv := by
  have hko : ∀ c, c ≠ cb → KeepsObject s s₁ c := by
    intro c hc
    apply KeepsObject.of_cell
    · simpa [hs₁] using hcell c hc
    · rw [hs₁]
    · rw [hs₁]
    · rw [hs₁]
      exact fun _ _ => id
    · simpa [hs₁] using hstarts c hc
    · simpa [hs₁] using hphase c hc
    · simpa [hs₁] using hrefs c hc
  have hok' : ∀ c, s₁.CallbackOk c := by
    intro c
    by_cases hc : c = cb
    · exact hc ▸ hok
    · apply (h.shared.callback c).of_data (hko c hc)
      · rw [hs₁, hcell c hc]
      · rw [hs₁]
        exact id
      · rw [hs₁]
        exact id
      · simpa [hs₁] using hstarts c hc
      · rw [hs₁]
        exact id
  subst hs₁
  apply h.of_step hs
  · refine ⟨hword, hlen, h.shared.sources, hrep, hok', h.shared.thread, hnodup, hdel, ?_,
      h.shared.wins, h.shared.done, h.shared.flags⟩
    intro hd
    rcases hdel' with hdel' | ⟨-, hdel'⟩
    · exact hdel' ▸ h.shared.deleted hd
    · simp [hdel']
  · rfl
  · refine ⟨fun _ _ => Iff.rfl, fun _ _ _ => rfl, fun _ _ _ => rfl, ?_, ?_⟩
    · intro u hu hh
      rcases hholder with heq | ⟨-, heq⟩
      · exact heq ▸ hh
      · cases heq.symm.trans hh
    · intro u hu hd hn
      rcases hdel' with heq | ⟨-, heq⟩
      · exact ⟨heq ▸ hd, hn⟩
      · exact absurd (Option.some.inj (hd.symm.trans heq)) hu
  · intro u g hg
    refine ⟨fun _ _ => id, fun _ _ => htokens _, ?_, fun _ => id, fun _ => .inl ?_, ?_, ?_, ?_⟩
    · intro hl
      rcases hholder with heq | ⟨hh, -⟩
      · exact ⟨heq, rfl, rfl⟩
      · simp [hg.locked_eq_false (.inr hh)] at hl
    · refine ⟨rfl, rfl, rfl, id, fun c hc => ?_⟩
      by_cases hccb : c = cb
      · exact hccb ▸ hserved (hccb ▸ hc)
      · exact ⟨hstarts c hccb, fun x hx => ⟨x, (hcell c hccb).trans hx, rfl, rfl⟩⟩
    · exact fun c hgc => hko c (hg.object_ne (h.top hs) ho hgc)
    · intro hgd
      rcases hdel' with heq | ⟨hn, -⟩
      · exact ⟨heq, rfl⟩
      · exact absurd hn (hg.holds.deleter_ne_none hgd)
    · intro c v hc
      by_cases hccb : c = cb
      · subst hccb
        rcases hgone with hp | hp | hp
        · simp [hp] at hc
        · exact .inr hp
        · rwa [← hp] at hc
      · rwa [← hphase c hccb] at hc
  · exact hown

variable [DecidableEq C]

/-- The constructor ends without a registration. -/
theorem Inv.notAdded {n : ℕ} (h : s.Inv) (hs : s.stack t = f :: rest) (ho : f.object = some cb)
    (hwin : f.winning = false) (hserves : f.serves = none) (hlock : f.locked = false)
    (hdel : f.deletes = false) (hp : s.phase cb = .constructing t) (htk : s.HasToken tk cb)
    (hb : s.Blank cb n) (hn : n ≤ 1) : (s.notAdded t tk cb rest).Inv := by
  have hphase : ∀ c, c ≠ cb → Function.update s.phase cb .alive c = s.phase c :=
    fun c hc => Function.update_of_ne hc ..
  cases tk with
  | copied k =>
    apply h.touch { s with phase := Function.update s.phase cb .alive } hs ho rfl
    · exact fun _ _ => rfl
    · exact hphase
    · exact fun _ _ => rfl
    · exact fun _ _ => Iff.rfl
    · exact .inl hp
    · exact fun hc => absurd hc hb.current
    · exact h.shared.links
    · exact Blank.callbackOk ⟨hb.starts, hb.queue, hb.current, hb.cell⟩ hn
        (Function.update_self ..) htk.2
    · exact h.shared.word
    · exact h.shared.tokens
    · exact h.shared.refs
    · exact fun _ => id
    · exact .inl rfl
    · exact h.shared.deleter
    · exact .inl rfl
    · exact fun hok hk => hok.return hk hwin hserves hlock hdel rfl rfl rfl rfl rfl rfl
  | moved k =>
    have hmem : cb ∈ s.refs := htk
    have hlen : (k :: s.tokens).length + (s.refs.erase cb).length =
        s.tokens.length + s.refs.length := by
      have hpos : 0 < s.refs.length := List.length_pos_of_mem hmem
      rw [List.length_erase_of_mem hmem, List.length_cons]
      omega
    apply h.touch { s with
      phase := Function.update s.phase cb .alive
      tokens := k :: s.tokens
      refs := s.refs.erase cb } hs ho rfl
    · exact fun _ _ => rfl
    · exact hphase
    · exact fun _ _ => rfl
    · exact fun c hc => List.mem_erase_of_ne hc
    · exact .inl hp
    · exact fun hc => absurd hc hb.current
    · exact h.shared.links
    · exact Blank.callbackOk ⟨hb.starts, hb.queue, hb.current, hb.cell⟩ hn
        (Function.update_self ..) h.shared.refs.not_mem_erase
    · exact hlen ▸ h.shared.word
    · exact hlen ▸ h.shared.tokens
    · exact h.shared.refs.erase cb
    · exact fun _ => List.mem_cons_of_mem k
    · exact .inl rfl
    · have hnone : s.deleter = none := h.shared.deleter.2 fun hnil => by simp [hnil] at hmem
      simp [hnone]
    · exact .inl rfl
    · exact fun hok hk => hok.return hk hwin hserves hlock hdel rfl rfl rfl rfl rfl rfl

/-- `__try_add_callback`, up to the lock. -/
theorem Inv.tryAdd (h : s.Inv) (old : Option ℕ) (spurious : Bool)
    (hs : s.stack t = .tryAdd tk cb old :: rest) :
    ∃ s', s.advance t spurious rest (.tryAdd tk cb old) = some s' ∧ s'.Inv := by
  obtain ⟨hp, htk, hb⟩ := h.top hs
  have hd : s.deleted = false := h.shared.not_deleted_of_token htk
  have hload : ∀ w, (s.goto t (.tryAdd tk cb w :: rest)).Inv := fun w =>
    h.turn hs ⟨hp, htk, hb⟩ rfl rfl rfl rfl rfl
  cases old with
  | none =>
    simp only [advance, load_eq hd, Option.bind_eq_bind, Option.bind_some]
    exact ⟨_, rfl, hload _⟩
  | some old =>
    obtain ⟨x, hx, hprev, hdata⟩ := hb.cell
    simp only [advance, hx, Option.bind_eq_bind, Option.bind_some]
    split
    · refine ⟨_, rfl, ?_⟩
      apply h.touch { s with starts := Function.update s.starts cb (s.starts cb + 1) } hs rfl rfl
      · exact fun _ _ => rfl
      · exact fun _ _ => rfl
      · exact fun c hc => Function.update_of_ne hc ..
      · exact fun _ _ => Iff.rfl
      · exact .inl hp
      · exact fun hc => absurd hc hb.current
      · exact h.shared.links
      · have hok := h.shared.callback cb
        refine ⟨fun hmem => absurd hmem hb.queue, fun hc => absurd hc hb.current, ?_, ?_, ?_, ?_,
          ?_⟩
        · exact fun hu => by simp [hp] at hu
        · exact fun ha => by simp [hp] at ha
        · exact fun hdead => by simp [hp] at hdead
        · simp [hb.starts]
        · intro y hy hf
          obtain rfl : x = y := Option.some.inj (hx.symm.trans hy)
          simp [hdata] at hf
      · exact h.shared.word
      · exact h.shared.tokens
      · exact h.shared.refs
      · exact fun _ => id
      · exact .inl rfl
      · exact h.shared.deleter
      · exact .inl rfl
      · intro hok hk
        have hone : State.Blank { s with
            starts := Function.update s.starts cb (s.starts cb + 1) } cb 1 :=
          ⟨by simp [hb.starts], hb.queue, hb.current, hb.cell⟩
        have hg : Frame.Holds { s with
            starts := Function.update s.starts cb (s.starts cb + 1) } t (.executing tk cb) :=
          ⟨hp, htk, hone⟩
        exact hok.next hk hg ⟨rfl, rfl, rfl, rfl, rfl⟩ rfl rfl rfl rfl rfl rfl
    · rename_i hreq
      split
      · exact ⟨_, rfl, h.notAdded hs rfl rfl rfl rfl rfl hp htk hb (Nat.zero_le 1)⟩
      · apply exchange_inv hd (hload _)
        rintro hl rfl
        have hwin : s.winner = none := h.shared.winner_eq_none (by simpa using hreq)
        have hg : Frame.Holds { s with word := s.word ||| lockedFlag, holder := some t } t
            (.push tk cb) :=
          ⟨hp, htk, ⟨hb.starts, hb.queue, hb.current, hb.cell⟩, rfl, hwin⟩
        exact h.lock hs hl hg rfl rfl rfl rfl rfl

/-- The callback was called by its constructor. -/
theorem Inv.executing (h : s.Inv) (spurious : Bool)
    (hs : s.stack t = .executing tk cb :: rest) :
    ∃ s', s.advance t spurious rest (.executing tk cb) = some s' ∧ s'.Inv := by
  obtain ⟨hp, htk, hb⟩ := h.top hs
  exact ⟨_, rfl, h.notAdded hs rfl rfl rfl rfl rfl hp htk hb (Nat.le_refl 1)⟩

theorem Inv.push (h : s.Inv) (spurious : Bool) (hs : s.stack t = .push tk cb :: rest) :
    ∃ s', s.advance t spurious rest (.push tk cb) = some s' ∧ s'.Inv := by
  obtain ⟨hp, htk, hb, hh, hw⟩ := h.top hs
  obtain ⟨x, hx, hprev, hdata⟩ := hb.cell
  obtain ⟨links, hpush, hrep, hkept⟩ := h.shared.links.pushFront hx hb.queue
  simp only [advance, load_eq (h.shared.not_deleted_of_token htk), hpush, Option.bind_eq_bind,
    Option.bind_some]
  refine ⟨_, rfl, ?_⟩
  apply h.relink { s with links, queue := cb :: s.queue } hs rfl rfl rfl hrep hkept
  · exact fun c hc => by simp [hc]
  · exact fun hn => absurd hw hn
  · obtain ⟨y, hy, hd⟩ : ∃ y, links.cell cb = some y ∧ y.data = x.data := by
      simpa [hx] using hkept.data cb
    refine ⟨fun _ => ⟨hb.starts, y, hy, by simp [hd, hdata], by simp [hd, hdata]⟩,
      fun hc => absurd hc hb.current, ?_, ?_, ?_, ?_, ?_⟩
    · exact fun hu => by simp [hp] at hu
    · exact fun ha => by simp [hp] at ha
    · exact fun hdead => by simp [hp] at hdead
    · simp [hb.starts]
    · intro z hz hf
      obtain rfl : y = z := Option.some.inj (hy.symm.trans hz)
      simp [hd, hdata] at hf
  · intro hok hk
    have hg : Frame.Holds { s with links, queue := cb :: s.queue } t (.unlockAdded tk cb) :=
      ⟨hp, htk, List.mem_cons_self, hh, hw⟩
    exact hok.next hk hg ⟨rfl, rfl, rfl, rfl, rfl⟩ rfl rfl rfl rfl rfl rfl

/-- The registration ends; the token reference is counted, or was the token's. -/
theorem Inv.unlockAdded (h : s.Inv) (spurious : Bool)
    (hroom : s.tokens.length + s.refs.length + 1 < 2 ^ 31)
    (hs : s.stack t = .unlockAdded tk cb :: rest) :
    ∃ s', s.advance t spurious rest (.unlockAdded tk cb) = some s' ∧ s'.Inv := by
  obtain ⟨hp, htk, hq, hh, hw⟩ := h.top hs
  obtain ⟨x, hx⟩ := h.shared.registered hq
  simp only [advance, load_eq (h.shared.not_deleted_of_token htk), Option.bind_eq_bind,
    Option.bind_some]
  cases tk with
  | copied k =>
    obtain ⟨hk, hnot⟩ := htk
    refine ⟨_, rfl, ?_⟩
    generalize hword : sub64 s.word (sub64 lockedFlag tokenRefIncrement) = w
    apply h.touch { s with word := w, holder := none, refs := cb :: s.refs } hs rfl rfl
    · exact fun _ _ => rfl
    · exact fun _ _ => rfl
    · exact fun _ _ => rfl
    · exact fun c hc => by simp [hc]
    · exact .inl hp
    · exact fun _ => ⟨rfl, fun x hx => ⟨x, hx, rfl, rfl⟩⟩
    · exact h.shared.links
    · exact (h.shared.callback cb).of_busy (.inl hp) rfl rfl rfl rfl rfl
    · have hpack := h.shared.word
      rw [hh, Option.isSome_some] at hpack
      rw [← hword, hpack, pack_unlock_increment hroom h.shared.sources]
      rfl
    · exact hroom
    · exact List.nodup_cons.2 ⟨hnot, h.shared.refs⟩
    · exact fun _ => id
    · exact .inr ⟨hh, rfl⟩
    · have hnone : s.deleter = none := h.shared.deleter.2 fun hnil => by simp [hnil] at hk
      simp [hnone]
    · exact .inl rfl
    · intro hok hk
      have hg : Frame.Holds { s with word := w, holder := none, refs := cb :: s.refs } t
          (.added (.copied k) cb) :=
        ⟨hp, List.mem_cons_self, x, hx.of_eq rfl rfl rfl rfl⟩
      refine hok.replace hk hg rfl rfl rfl rfl ?_ ?_ ?_
      · exact fun c _ hc => .inr ⟨hc, by simp [Frame.serves]⟩
      · exact fun hh => by simp at hh
      · exact fun hd hn => by cases hok.deletes_top hd hn
  | moved k =>
    exact ⟨_, rfl, h.unlock hs rfl rfl ⟨hp, htk, x, hx⟩ rfl rfl rfl rfl rfl⟩

theorem Inv.added (h : s.Inv) (spurious : Bool) (hs : s.stack t = .added tk cb :: rest) :
    ∃ s', s.advance t spurious rest (.added tk cb) = some s' ∧ s'.Inv := by
  obtain ⟨hp, hr, x, hx⟩ := h.top hs
  have hcb := hx.cell
  have hok := h.shared.callback cb
  simp only [advance, hcb, Option.bind_eq_bind, Option.bind_some]
  refine ⟨_, rfl, ?_⟩
  apply h.touch { s with
    links := s.links.setCell cb (some { x with data := { x.data with state := true } })
    phase := Function.update s.phase cb .alive } hs rfl rfl
  · exact fun c hc => Intrusive.Links.cell_setCell_of_ne _ _ hc
  · exact fun c hc => Function.update_of_ne hc ..
  · exact fun _ _ => rfl
  · exact fun _ _ => Iff.rfl
  · exact .inl hp
  · intro _
    refine ⟨rfl, fun y hy => ?_⟩
    obtain rfl : x = y := Option.some.inj (hcb.symm.trans hy)
    exact ⟨_, Intrusive.Links.cell_setCell .., rfl, rfl⟩
  · exact h.shared.links.setCell hcb ⟨rfl, rfl⟩
  · have hcell : (s.links.setCell cb
        (some { x with data := { x.data with state := true } })).cell cb =
        some { x with data := { x.data with state := true } } := Intrusive.Links.cell_setCell ..
    constructor
    · intro hmem
      obtain ⟨hz, y, hy, hyr, hyf⟩ := hok.queued hmem
      obtain rfl : x = y := Option.some.inj (hcb.symm.trans hy)
      exact ⟨hz, _, hcell, hyr, hyf⟩
    · intro hc
      obtain ⟨hnot, hset, y, hy, hyf⟩ := hok.current hc
      obtain rfl : x = y := Option.some.inj (hcb.symm.trans hy)
      exact ⟨hnot, hset, _, hcell, hyf⟩
    · exact fun hu => by simp at hu
    · exact fun _ => ⟨_, hcell, fun _ => ⟨hr, _, hcell, hx.somewhere, hx.prev, hx.isRemoved⟩,
        fun hf => by simp at hf⟩
    · exact fun hd => by simp at hd
    · exact hok.starts
    · intro y hy hf
      obtain rfl := Option.some.inj (hcell.symm.trans hy)
      exact hok.finished x hcb hf
  · exact h.shared.word
  · exact h.shared.tokens
  · exact h.shared.refs
  · exact fun _ => id
  · exact .inl rfl
  · exact h.shared.deleter
  · exact .inl rfl
  · exact fun hok hk => hok.return hk rfl rfl rfl rfl rfl rfl rfl rfl rfl rfl

/-- `__lock` in `__remove_callback`. -/
theorem Inv.lockToRemove (h : s.Inv) (old : Option ℕ) (spurious : Bool)
    (hs : s.stack t = .lockToRemove cb old :: rest) :
    ∃ s', s.advance t spurious rest (.lockToRemove cb old) = some s' ∧ s'.Inv := by
  obtain ⟨hp, hr, x, hx⟩ := h.top hs
  have hd : s.deleted = false := h.shared.not_deleted_of_ref hr
  have hload : ∀ w, (s.goto t (.lockToRemove cb w :: rest)).Inv := fun w =>
    h.turn hs ⟨hp, hr, x, hx⟩ rfl rfl rfl rfl rfl
  cases old with
  | none =>
    simp only [advance, load_eq hd, Option.bind_eq_bind, Option.bind_some]
    exact ⟨_, rfl, hload _⟩
  | some old =>
    simp only [advance]
    apply exchange_inv hd (hload _)
    rintro hl rfl
    exact h.lock hs hl ⟨hp, hr, ⟨x, hx.of_eq rfl rfl rfl rfl⟩, rfl⟩ rfl rfl rfl rfl rfl

/-- The destructor takes its callback out of the list if it is still there. -/
theorem Inv.unlink (h : s.Inv) (spurious : Bool) (hs : s.stack t = .unlink cb :: rest) :
    ∃ s', s.advance t spurious rest (.unlink cb) = some s' ∧ s'.Inv := by
  obtain ⟨hp, hr, ⟨x, hx⟩, hh⟩ := h.top hs
  have hok := h.shared.callback cb
  simp only [advance, load_eq (h.shared.not_deleted_of_ref hr), hx.cell, Option.bind_eq_bind,
    Option.bind_some]
  split
  · rename_i hprev
    have hmem : cb ∈ s.queue := by
      by_contra hmem
      simp [hx.prev hmem] at hprev
    have hcur : s.current ≠ some cb := fun hc => (hok.current hc).1 hmem
    obtain ⟨links, hunlink, hrep, hkept⟩ := h.shared.links.unlink hmem
    have hnot : cb ∉ s.queue.erase cb := h.shared.links.nodup.not_mem_erase
    obtain ⟨y, hy, hyd⟩ : ∃ y, links.cell cb = some y ∧ y.data = x.data := by
      simpa [hx.cell] using hkept.data cb
    simp only [hunlink, Option.bind_some]
    refine ⟨_, rfl, ?_⟩
    apply h.relink { s with links, queue := s.queue.erase cb } hs rfl rfl rfl hrep
    · exact ⟨fun j hj => hkept.outside j fun hmem => hj (List.mem_cons_of_mem cb hmem),
        hkept.data⟩
    · exact fun c hc => List.mem_erase_of_ne hc
    · exact fun _ hnil => by simp [hnil]
    · refine ⟨fun hmem => absurd hmem hnot, fun hc => absurd hc hcur, ?_, ?_, ?_, hok.starts, ?_⟩
      · exact fun hu => by simp [hp] at hu
      · exact fun ha => by simp [hp] at ha
      · exact fun hd => by simp [hp] at hd
      · intro z hz hf
        obtain rfl : y = z := Option.some.inj (hy.symm.trans hz)
        exact hok.finished x hx.cell (hyd ▸ hf)
    · intro hok hk
      have hg : Frame.Holds { s with links, queue := s.queue.erase cb } t (.unlockRemoved cb) :=
        ⟨hp, hr, ⟨⟨y, hy⟩, hnot, hcur⟩, hh⟩
      exact hok.next hk hg ⟨rfl, rfl, rfl, rfl, rfl⟩ rfl rfl rfl rfl rfl rfl
  · rename_i hprev
    have hmem : cb ∉ s.queue := by
      intro hmem
      obtain ⟨y, hy, hyp⟩ := h.shared.links.mem_cell hmem
      obtain rfl : x = y := Option.some.inj (hx.cell.symm.trans hy)
      simp [Option.isSome_iff_ne_none] at hprev
      exact hyp hprev
    exact ⟨_, rfl, h.turn hs ⟨hp, hr, ⟨x, hx⟩, hmem, hh⟩ rfl rfl rfl rfl rfl⟩

theorem Inv.unlockNotFound (h : s.Inv) (spurious : Bool)
    (hs : s.stack t = .unlockNotFound cb :: rest) :
    ∃ s', s.advance t spurious rest (.unlockNotFound cb) = some s' ∧ s'.Inv := by
  obtain ⟨hp, hr, hx, hmem, -⟩ := h.top hs
  simp only [advance, load_eq (h.shared.not_deleted_of_ref hr), Option.bind_eq_bind,
    Option.bind_some]
  exact ⟨_, rfl, h.unlock hs rfl rfl ⟨hp, hr, hx, hmem⟩ rfl rfl rfl rfl rfl⟩

/-- A destructor gives up the reference of its callback, and goes on to `g`. -/
theorem Inv.releaseTo {w : ℕ} {holder deleter : Option T} {g : Frame C K} (h : s.Inv)
    (s₁ : State T C K) (hs : s.stack t = f :: rest)
    (hs₁ : s₁ = { s with word := w, holder, deleter, refs := s.refs.erase cb })
    (ho : f.object = some cb) (hwin : f.winning = false) (hserves : f.serves = none)
    (hp : s.phase cb = .destroying t) (hr : cb ∈ s.refs) (hl : s.Loose cb)
    (hholder : holder = s.holder ∧ f.locked = false ∨ s.holder = some t ∧ holder = none)
    (hword : w = pack s.winner.isSome holder.isSome
      (s.tokens.length + (s.refs.erase cb).length) s.sources.length)
    (hdel : deleter = none ↔ ¬ (s.tokens = [] ∧ s.sources = [] ∧ s.refs.erase cb = []))
    (hdel' : deleter = none ∨ deleter = some t ∧ g.deletes = true)
    (hgo : g.object = some cb) (hgwin : g.winning = false) (hg : g.Holds s₁ t) :
    (s₁.goto t (g :: rest)).Inv := by
  have hnone : s.deleter = none := h.shared.deleter.2 fun hnil => by simp [hnil] at hr
  subst hs₁
  apply h.touch _ hs ho rfl
  · exact fun _ _ => rfl
  · exact fun _ _ => rfl
  · exact fun _ _ => rfl
  · exact fun c hc => List.mem_erase_of_ne hc
  · exact .inr (.inr rfl)
  · exact fun hc => absurd hc hl.current
  · exact h.shared.links
  · exact (h.shared.callback cb).of_busy (.inr hp) rfl rfl rfl rfl rfl
  · exact hword
  · exact (Nat.add_le_add_left List.length_erase_le _).trans_lt h.shared.tokens
  · exact h.shared.refs.erase cb
  · exact fun _ => id
  · exact hholder.imp_left And.left
  · exact hdel
  · rw [hnone]
    exact hdel'.imp_right fun hd => ⟨rfl, hd.1⟩
  · intro hok hk
    refine hok.replace hk hg (hgo.trans ho.symm) rfl rfl (hgwin.trans hwin.symm) ?_ ?_ ?_
    · exact fun c _ hc => .inr ⟨hc, by simp [hserves]⟩
    · intro hh
      rcases hholder with ⟨heq, hf⟩ | ⟨-, heq⟩
      · simp [hok.locked_top (heq ▸ hh)] at hf
      · cases heq.symm.trans hh
    · intro hd _
      rcases hdel' with heq | ⟨-, hgd⟩
      · cases heq.symm.trans hd
      · exact hgd

/-- A destructor gives up the reference of its callback: the state is deleted when it was the
last one. -/
theorem Inv.release {w least : ℕ} {holder : Option T} (h : s.Inv) (hs : s.stack t = f :: rest)
    (ho : f.object = some cb) (hwin : f.winning = false) (hserves : f.serves = none)
    (hp : s.phase cb = .destroying t) (hr : cb ∈ s.refs)
    (hl : s.Loose cb) (hholder : holder = s.holder ∧ f.locked = false ∨
      s.holder = some t ∧ holder = none)
    (hword : w = pack s.winner.isSome holder.isSome
      (s.tokens.length + (s.refs.erase cb).length) s.sources.length)
    (hleast : s.word < least ↔
      s.tokens.length + (s.refs.erase cb).length = 0 ∧ s.sources.length = 0) :
    ({ s with word := w, holder, refs := s.refs.erase cb }.release t s.word least (some cb)
      rest).Inv := by
  have hnone : s.deleter = none := h.shared.deleter.2 fun hnil => by simp [hnil] at hr
  have hnot : cb ∉ s.refs.erase cb := h.shared.refs.not_mem_erase
  have hnil : s.tokens.length + (s.refs.erase cb).length = 0 ∧ s.sources.length = 0 ↔
      s.tokens = [] ∧ s.sources = [] ∧ s.refs.erase cb = [] := by
    simp only [Nat.add_eq_zero_iff, List.length_eq_zero_iff]
    tauto
  simp only [State.release]
  split
  · rename_i hlt
    have hempty := hnil.1 (hleast.1 hlt)
    apply h.releaseTo _ hs rfl ho hwin hserves hp hr hl hholder hword (by simp [hempty])
      (.inr ⟨rfl, rfl⟩) rfl rfl
    refine ⟨rfl, h.shared.not_deleted_of_ref hr, fun c hc => ?_⟩
    obtain rfl : cb = c := Option.some.inj hc
    exact ⟨hp, hnot, hl.cell, hl.queue, hl.current⟩
  · rename_i hlt
    have hrest : ¬ (s.tokens = [] ∧ s.sources = [] ∧ s.refs.erase cb = []) :=
      fun hempty => hlt (hleast.2 (hnil.2 hempty))
    apply h.releaseTo _ hs rfl ho hwin hserves hp hr hl hholder hword
      ⟨fun _ => hrest, fun _ => hnone⟩ (.inl hnone) rfl rfl
    exact ⟨hp, hnot, hl.cell, hl.queue, hl.current⟩

omit [DecidableEq T] in
theorem length_of_mem_refs (hr : cb ∈ s.refs) :
    s.tokens.length + s.refs.length = s.tokens.length + (s.refs.erase cb).length + 1 := by
  have hpos : 0 < s.refs.length := List.length_pos_of_mem hr
  rw [List.length_erase_of_mem hr]
  omega

theorem Inv.unlockRemoved (h : s.Inv) (spurious : Bool)
    (hs : s.stack t = .unlockRemoved cb :: rest) :
    ∃ s', s.advance t spurious rest (.unlockRemoved cb) = some s' ∧ s'.Inv := by
  obtain ⟨hp, hr, hl, hh⟩ := h.top hs
  have hpack := h.shared.word
  have hlen := h.shared.tokens
  rw [length_of_mem_refs hr] at hpack hlen
  rw [hh, Option.isSome_some] at hpack
  simp only [advance, load_eq (h.shared.not_deleted_of_ref hr), Option.bind_eq_bind,
    Option.bind_some]
  refine ⟨_, rfl, ?_⟩
  apply h.release hs rfl rfl rfl hp hr hl (.inr ⟨hh, rfl⟩)
  · rw [hpack, pack_unlock_decrement (Nat.lt_of_succ_lt hlen) h.shared.sources]
    rfl
  · rw [hpack, pack_lt_locked_two_tokens]

theorem Inv.removeReference (h : s.Inv) (spurious : Bool)
    (hs : s.stack t = .removeReference cb :: rest) :
    ∃ s', s.advance t spurious rest (.removeReference cb) = some s' ∧ s'.Inv := by
  obtain ⟨hp, hr, hl⟩ := h.top hs
  have hpack := h.shared.word
  have hlen := h.shared.tokens
  rw [length_of_mem_refs hr] at hpack hlen
  simp only [advance, load_eq (h.shared.not_deleted_of_ref hr), Option.bind_eq_bind,
    Option.bind_some]
  refine ⟨_, rfl, ?_⟩
  apply h.release hs rfl rfl rfl hp hr hl (.inl ⟨rfl, rfl⟩)
  · rw [hpack, pack_sub_token (Nat.lt_of_succ_lt hlen) h.shared.sources]
  · rw [hpack, pack_lt_two_tokens]

omit [DecidableEq T] [DecidableEq C] in
/-- A callback without a flag, on the thread that calls the callbacks, is not being called. -/
theorem Inv.not_current {x : Intrusive.Cell C Callback} (h : s.Inv)
    (hs : s.stack t = .checkThread cb :: rest) (hwin : s.winner = some t)
    (hx : s.links.cell cb = some x) (hnone : x.data.isRemoved = none) :
    s.current ≠ some cb := by
  intro hc
  -- else the call is further down on this stack, and knows of its flag
  have hstack : s.StackOk t (.checkThread cb :: rest) := hs ▸ h.stack t
  obtain ⟨f, hf, hserves⟩ := hstack.serves hwin cb hc
  have hf' : f ∈ rest := by
    rcases List.mem_cons.1 hf with rfl | hf
    · cases hserves
    · exact hf
  have hholds := hstack.holds f hf
  cases f with
  | running k c anyMore n =>
    obtain rfl : c = cb := Option.some.inj hserves
    rcases hholds.2 with ⟨hser, -⟩ | hcut
    · obtain ⟨y, hy, hyr, -⟩ := hser.cell
      obtain rfl : x = y := Option.some.inj (hx.symm.trans hy)
      simp [hnone] at hyr
    · simp [hcut.current] at hc
  | executing => cases hserves
  | _ => cases hstack.below _ hf'

/-- The destructor of the callback that is being called sets the flag of that call. -/
theorem Inv.setRemoved {x : Intrusive.Cell C Callback} {n : ℕ} (h : s.Inv)
    (hs : s.stack t = .checkThread cb :: rest) (hthread : s.signallingThread = some t)
    (hx : s.Registered cb x) (hsome : x.data.isRemoved = some n) :
    ({ s with flags := Function.update s.flags n (some true), current := none }.goto t
      (.removeReference cb :: rest)).Inv := by
  obtain ⟨hp, hr, -, hq⟩ := h.top hs
  have hok := h.shared.callback cb
  have hwin : s.winner = some t := h.shared.thread t hthread
  obtain ⟨hcur, hflag⟩ := hx.isRemoved n hsome
  have hne : ∀ c, c ≠ cb → s.current ≠ some c := fun c hc hcur' =>
    hc (Option.some.inj (hcur'.symm.trans hcur))
  have hko : ∀ c, c ≠ cb → KeepsObject s { s with
      flags := Function.update s.flags n (some true), current := none } c := by
    intro c hc
    refine .of_cell rfl Iff.rfl ?_ (fun hcur' => absurd hcur' (hne c hc)) rfl rfl Iff.rfl
    simp [hne c hc]
  apply h.of_step hs
  · refine ⟨h.shared.word, h.shared.tokens, h.shared.sources, h.shared.links, fun c => ?_,
      h.shared.thread, h.shared.refs, h.shared.deleter, h.shared.deleted, h.shared.wins,
      fun hw => ⟨(h.shared.done hw).1, rfl⟩, ?_⟩
    · by_cases hc : c = cb
      · subst hc
        exact ⟨hok.queued, fun hc => by simp at hc, hok.unborn, fun ha => by simp [hp] at ha,
          hok.dead, hok.starts, hok.finished⟩
      · exact (h.shared.callback c).of_data (hko c hc) rfl id (fun hc => by simp at hc) rfl id
    · intro m hm
      have hmn : m ≠ n := by
        rintro rfl
        simp [h.shared.flags m hm] at hflag
      simpa [hmn] using h.shared.flags m hm
  · rfl
  · refine ⟨fun _ _ => Iff.rfl, fun _ _ _ => rfl, fun u hu hwu => ?_, fun _ _ => id,
      fun _ _ hd hn => ⟨hd, hn⟩⟩
    exact absurd (Option.some.inj (hwu.symm.trans hwin)) hu
  · intro u g hg
    refine ⟨fun _ _ => id, fun _ _ => id, fun _ => ⟨rfl, rfl, rfl⟩, fun _ => id, ?_,
      fun c hgc => hko c (hg.object_ne (h.top hs) rfl hgc), fun _ => ⟨rfl, rfl⟩,
      fun _ _ => id⟩
    intro hgw
    have hut : u = t := Option.some.inj ((hg.holds.winner hgw).symm.trans hwin)
    exact .inr ⟨hg.runs hut, rfl, rfl, rfl, cb, x, n, t, hcur, hx.cell, hsome, by simp,
      hthread, hp⟩
  · intro hok hk
    have hg : Frame.Holds { s with
        flags := Function.update s.flags n (some true), current := none } t
        (.removeReference cb) := ⟨hp, hr, ⟨x, hx.cell⟩, hq, by simp⟩
    refine hok.replace hk hg rfl rfl rfl rfl ?_ ?_ ?_
    · exact fun c _ hc => by simp at hc
    · exact fun hh => by cases hok.locked_top hh
    · exact fun hd hn => by cases hok.deletes_top hd hn

omit [DecidableEq T] [DecidableEq C] in
/-- A registered callback that is out of the list was taken out to be called. -/
theorem Shared.signallingThread_ne_none {x : Intrusive.Cell C Callback} (h : s.Shared)
    (hx : s.Registered cb x) (hq : cb ∉ s.queue) : s.signallingThread ≠ none := by
  rcases hx.somewhere with hmem | hcur | hfin
  · exact absurd hmem hq
  · exact ((h.callback cb).current hcur).2.1
  · exact ((h.callback cb).finished x hx.cell hfin).2

/-- The destructor waits, unless its thread is the one that calls the callbacks. -/
theorem Inv.checkThread (h : s.Inv) (spurious : Bool)
    (hs : s.stack t = .checkThread cb :: rest) :
    ∃ s', s.advance t spurious rest (.checkThread cb) = some s' ∧ s'.Inv := by
  obtain ⟨hp, hr, ⟨x, hx⟩, hq⟩ := h.top hs
  simp only [advance, load_eq (h.shared.not_deleted_of_ref hr), hx.cell, Option.bind_eq_bind,
    Option.bind_some]
  split
  · rename_i hthread
    split
    · rename_i hnone
      have hcur : s.current ≠ some cb :=
        h.not_current hs (h.shared.thread t hthread) hx.cell hnone
      exact ⟨_, rfl, h.turn hs ⟨hp, hr, ⟨x, hx.cell⟩, hq, hcur⟩ rfl rfl rfl rfl rfl⟩
    · rename_i n hsome
      simp only [(hx.isRemoved n hsome).2, Option.bind_some]
      exact ⟨_, rfl, h.setRemoved hs hthread hx hsome⟩
  · rename_i hthread
    obtain ⟨u, hu⟩ := Option.ne_none_iff_exists'.1 (h.shared.signallingThread_ne_none hx hq)
    have hut : u ≠ t := by
      rintro rfl
      exact hthread hu
    exact ⟨_, rfl, h.turn hs ⟨hp, hr, ⟨x, hx⟩, hq, u, hut, h.shared.thread u hu⟩ rfl rfl rfl rfl
      rfl⟩

theorem Inv.awaitFinished (h : s.Inv) (spurious : Bool)
    (hs : s.stack t = .awaitFinished cb :: rest) :
    ∃ s', s.advance t spurious rest (.awaitFinished cb) = some s' ∧ s'.Inv := by
  obtain ⟨hp, hr, ⟨x, hx⟩, hq, -⟩ := h.top hs
  simp only [advance, hx.cell, Option.bind_eq_bind, Option.bind_some]
  split
  · rename_i hfin
    have hcur : s.current ≠ some cb := by
      intro hc
      obtain ⟨-, -, y, hy, hyf⟩ := (h.shared.callback cb).current hc
      obtain rfl : x = y := Option.some.inj (hx.cell.symm.trans hy)
      simp [hfin] at hyf
    exact ⟨_, rfl, h.turn hs ⟨hp, hr, ⟨x, hx.cell⟩, hq, hcur⟩ rfl rfl rfl rfl rfl⟩
  · exact ⟨_, rfl, h⟩

theorem Inv.deleteState {o : Option C} (h : s.Inv) (spurious : Bool)
    (hs : s.stack t = .deleteState o :: rest) :
    ∃ s', s.advance t spurious rest (.deleteState o) = some s' ∧ s'.Inv := by
  obtain ⟨hd, hn, ho⟩ := h.top hs
  simp only [advance, hn, Bool.false_eq_true, if_false]
  refine ⟨_, rfl, ?_⟩
  apply h.of_step hs
  · exact h.shared.of_eq rfl rfl rfl rfl rfl rfl rfl rfl h.shared.word h.shared.tokens
      h.shared.sources h.shared.thread id h.shared.deleter (by simp [hd]) h.shared.wins
      h.shared.done
  · rfl
  · exact ⟨fun _ _ => Iff.rfl, fun _ _ _ => rfl, fun _ _ _ => rfl, fun _ _ => id,
      fun _ _ _ hn => by simp at hn⟩
  · intro u g hg
    have hgd : g.deletes = false := by
      cases g with
      | deleteState o' =>
        have hut : u = t := Option.some.inj (hg.holds.1.symm.trans hd)
        cases hg.runs hut
      | _ => rfl
    exact .of_eq rfl rfl rfl rfl rfl rfl rfl rfl (fun _ _ => id) (fun _ _ => id)
      (fun _ => ⟨rfl, rfl⟩) (fun _ => id) fun hgd' => by simp [hgd] at hgd'
  · intro hok hk
    cases o with
    | none =>
      apply hok.pop hk rfl rfl
      · exact fun c _ hc => ⟨hc, by simp [Frame.serves]⟩
      · exact fun hh => by cases hok.locked_top hh
      · exact fun _ => rfl
    | some cb =>
      obtain ⟨hp, hr, hl⟩ := ho cb rfl
      have hg : Frame.Holds { s with deleted := true } t (.destroyed cb) :=
        ⟨hp, hr, hl.cell, hl.queue, hl.current⟩
      refine hok.replace hk hg rfl rfl rfl rfl ?_ ?_ ?_
      · exact fun c _ hc => .inr ⟨hc, by simp [Frame.serves]⟩
      · exact fun hh => by cases hok.locked_top hh
      · exact fun _ hn => by simp at hn

/-- The destructor of a callback ends, and its memory is gone. -/
theorem Inv.destroyed (h : s.Inv) (spurious : Bool) (hs : s.stack t = .destroyed cb :: rest) :
    ∃ s', s.advance t spurious rest (.destroyed cb) = some s' ∧ s'.Inv := by
  obtain ⟨hp, hr, hl⟩ := h.top hs
  obtain ⟨x, hx⟩ := hl.cell
  simp only [advance, hx, Option.bind_eq_bind, Option.bind_some]
  refine ⟨_, rfl, ?_⟩
  apply h.touch { s with
    links := s.links.setCell cb none
    phase := Function.update s.phase cb .dead } hs rfl rfl
  · exact fun c hc => Intrusive.Links.cell_setCell_of_ne _ _ hc
  · exact fun c hc => Function.update_of_ne hc ..
  · exact fun _ _ => rfl
  · exact fun _ _ => Iff.rfl
  · exact .inr (.inl (Function.update_self ..))
  · exact fun hc => absurd hc hl.current
  · exact h.shared.links.setCell_of_notMem hl.queue none
  · refine ⟨fun hmem => absurd hmem hl.queue, fun hc => absurd hc hl.current, ?_, ?_, ?_,
      (h.shared.callback cb).starts, ?_⟩
    · exact fun hu => by simp at hu
    · exact fun ha => by simp at ha
    · exact fun _ => Intrusive.Links.cell_setCell ..
    · exact fun y hy => by simp at hy
  · exact h.shared.word
  · exact h.shared.tokens
  · exact h.shared.refs
  · exact fun _ => id
  · exact .inl rfl
  · exact h.shared.deleter
  · exact .inl rfl
  · exact fun hok hk => hok.return hk rfl rfl rfl rfl rfl rfl rfl rfl rfl rfl

/-- No call uses what is not there, and every step keeps the invariant. -/
theorem Inv.advance (h : s.Inv) (spurious : Bool)
    (hroom : s.tokens.length + s.refs.length + 1 < 2 ^ 31) (hs : s.stack t = f :: rest) :
    ∃ s', s.advance t spurious rest f = some s' ∧ s'.Inv := by
  cases f with
  | signal k old => exact h.signal old spurious hs
  | setThread => exact h.setThread spurious hs
  | dequeue => exact h.dequeue spurious hs
  | unlockToRun => exact h.unlockToRun spurious hs
  | mark => exact h.mark spurious hs
  | running => exact h.running spurious hs
  | clearRemoved => exact h.clearRemoved spurious hs
  | storeFinished => exact h.storeFinished spurious hs
  | relock k old => exact h.relock old spurious hs
  | unlockToReturn => exact h.unlockToReturn spurious hs
  | tryAdd tk cb old => exact h.tryAdd old spurious hs
  | executing => exact h.executing spurious hs
  | push => exact h.push spurious hs
  | unlockAdded => exact h.unlockAdded spurious hroom hs
  | added => exact h.added spurious hs
  | lockToRemove cb old => exact h.lockToRemove old spurious hs
  | unlink => exact h.unlink spurious hs
  | unlockRemoved => exact h.unlockRemoved spurious hs
  | unlockNotFound => exact h.unlockNotFound spurious hs
  | checkThread => exact h.checkThread spurious hs
  | awaitFinished => exact h.awaitFinished spurious hs
  | removeReference => exact h.removeReference spurious hs
  | deleteState => exact h.deleteState spurious hs
  | destroyed => exact h.destroyed spurious hs

end Object

end Jkl.StopState.State
