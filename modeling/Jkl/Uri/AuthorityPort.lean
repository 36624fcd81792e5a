import Jkl.Uri.AutoPort
import Jkl.Uri.ReaderSpec

/-! The port of an authority. It is the text after the `':'` right behind the host; the reader does
not ask for the `':'` where the host is a literal in brackets. -/
namespace Jkl.Uri

open Cut (find rfind)
open Jkl.Pb (CInt)

variable {asserts : Bool} {src : Codec} {t : Tag} {a : Act} {as : List Act} {comps comps' : Comps}
  {c : ReadComp} {s u m : Bytes} {p : Parts} {q : Bytes × Bytes}

/-! A run of acts for different components does to each of them what its act does. -/

/-- What the act does to the component it is for. -/
def Act.on (asserts : Bool) (src : Codec) (c : ReadComp) : Act → Except Stop ReadComp
  | doRead t s => c.read asserts t src s
  | assignPort s uri => c.assignPort s uri
  | fail e => .error (.err e)

theorem Act.run_eq (ht : a.target = some t) : a.run asserts src comps =
    match comps t with
    | none => .ok comps
    | some c => (a.on asserts src c).map fun c' => Function.update comps t (some c') := by
  cases a with
  | fail e => cases ht
  | doRead t' s =>
    cases Option.some.inj ht
    rfl
  | assignPort s uri =>
    cases Option.some.inj ht
    rfl

/-- Only the component the act is for changes. -/
theorem Act.on_of_did (h : a.Did asserts src comps comps') :
    ∃ t, a.target = some t ∧ (∀ t' ≠ t, comps' t' = comps t') ∧
      ∀ c, comps t = some c → ∃ c', a.on asserts src c = .ok c' ∧ comps' t = some c' := by
  have hput : ∀ (t : Tag) (f : ReadComp → Except Stop ReadComp),
      (comps t = none ∧ comps' = comps ∨ ∃ c c', comps t = some c ∧ f c = .ok c' ∧
        comps' = Function.update comps t (some c')) →
      (∀ t' ≠ t, comps' t' = comps t') ∧
        ∀ c, comps t = some c → ∃ c', f c = .ok c' ∧ comps' t = some c' := by
    rintro t f (⟨hc, rfl⟩ | ⟨c, c', hc, hf, rfl⟩)
    · simp [hc]
    · constructor
      · intro t' ht'
        rw [Function.update_of_ne ht']
      · intro d hd
        obtain rfl : c = d := Option.some.inj (hc.symm.trans hd)
        exact ⟨c', hf, Function.update_self ..⟩
  cases a with
  | fail e => exact h.elim
  | doRead t s => exact ⟨t, rfl, hput t (fun c => c.read asserts t src s) h⟩
  | assignPort s uri => exact ⟨.autoPort, rfl, hput .autoPort (fun c => c.assignPort s uri) h⟩

theorem runActs_off (h : runActs asserts src as comps = .ok comps')
    (ht : t ∉ as.filterMap Act.target) : comps' t = comps t := by
  induction as generalizing comps with
  | nil => rw [Except.ok.inj h]
  | cons a as ih =>
    obtain ⟨mid, hdid, hrest⟩ := runActs_cons_ok h
    obtain ⟨t', ht', hoff, -⟩ := Act.on_of_did hdid
    simp only [List.filterMap_cons, ht', List.mem_cons, not_or] at ht
    rw [ih hrest ht.2, hoff t ht.1]

theorem runActs_at (h : runActs asserts src as comps = .ok comps')
    (hn : (as.filterMap Act.target).Nodup) (ha : a ∈ as) (ht : a.target = some t)
    (hc : comps t = some c) : ∃ c', a.on asserts src c = .ok c' ∧ comps' t = some c' := by
  induction as generalizing comps with
  | nil => simp at ha
  | cons b as ih =>
    obtain ⟨mid, hdid, hrest⟩ := runActs_cons_ok h
    obtain ⟨t', ht', hoff, hat⟩ := Act.on_of_did hdid
    simp only [List.filterMap_cons, ht', List.nodup_cons] at hn
    obtain rfl | ha := List.mem_cons.1 ha
    · obtain rfl : t' = t := Option.some.inj (ht'.symm.trans ht)
      obtain ⟨c', hon, hc'⟩ := hat c hc
      exact ⟨c', hon, by rw [runActs_off hrest hn.1, hc']⟩
    · have hne : t ≠ t' := by
        rintro rfl
        exact hn.1 (List.mem_filterMap.2 ⟨a, ha, ht⟩)
      exact ih hrest hn.2 ha (by rw [hoff t hne, hc])

/-- The component the act is for, if there is one, takes what it is given. -/
def Act.Takes (asserts : Bool) (src : Codec) (comps : Comps) (a : Act) : Prop :=
  ∃ t, a.target = some t ∧ ∀ c, comps t = some c → ∃ c', a.on asserts src c = .ok c'

theorem Act.exists_run (h : a.Takes asserts src comps) :
    ∃ comps', a.run asserts src comps = .ok comps' := by
  obtain ⟨t, ht, htakes⟩ := h
  rw [run_eq ht]
  cases hc : comps t with
  | none => exact ⟨comps, rfl⟩
  | some c =>
    obtain ⟨c', hon⟩ := htakes c hc
    exact ⟨_, by simp only [hon]; rfl⟩

theorem runActs_ok_iff (hn : (as.filterMap Act.target).Nodup) :
    (∃ comps', runActs asserts src as comps = .ok comps') ↔
      ∀ a ∈ as, a.Takes asserts src comps := by
  constructor
  · rintro ⟨comps', h⟩ a ha
    have hfail : ∀ e, a ≠ .fail e := fun e he => fail_not_mem h e (he ▸ ha)
    obtain ⟨t, ht⟩ : ∃ t, a.target = some t := by
      cases a with
      | fail e => exact absurd rfl (hfail e)
      | doRead t s => exact ⟨t, rfl⟩
      | assignPort s uri => exact ⟨.autoPort, rfl⟩
    refine ⟨t, ht, fun c hc => ?_⟩
    obtain ⟨c', hon, -⟩ := runActs_at h hn ha ht hc
    exact ⟨c', hon⟩
  · intro h
    induction as generalizing comps with
    | nil => exact ⟨comps, rfl⟩
    | cons a as ih =>
      rw [List.forall_mem_cons] at h
      obtain ⟨mid, hrun⟩ := Act.exists_run h.1
      obtain ⟨t, ht, hoff, -⟩ := Act.on_of_did (Act.did_of_run hrun)
      simp only [List.filterMap_cons, ht, List.nodup_cons] at hn
      -- the acts left are for other components, which are as they were
      have hleft : ∀ b ∈ as, b.Takes asserts src mid := by
        intro b hb
        obtain ⟨t', ht', htakes⟩ := h.2 b hb
        refine ⟨t', ht', fun c hc => htakes c ?_⟩
        have hne : t' ≠ t := by
          rintro rfl
          exact hn.1 (List.mem_filterMap.2 ⟨b, hb, ht'⟩)
        rwa [hoff t' hne] at hc
      obtain ⟨comps', hend⟩ := ih hn.2 hleft
      exact ⟨comps', by simp only [runActs, hrun, Except.bind, hend]⟩

/-! The acts of a text on its host and port. -/

theorem mem_acts_of_hostPort (hh : p.hostPort ≠ []) (hq : hostCut p.hostPort = some q)
    (ha : a ∈ portActs p.uri q.2) : a ∈ p.acts := by
  have hmem : a ∈ hostPortActs p.uri p.hostPort := by
    rw [hostPortActs_eq, if_neg hh, hq]
    exact List.mem_cons_of_mem _ (List.mem_cons_of_mem _ ha)
  cases hs : p.ssAuthority with
  | none => simp [Parts.hostPort, hs] at hh
  | some m =>
    have hauth : a ∈ authorityActs p.uri m := by
      simp only [Parts.hostPort, hs, Option.elim] at hmem
      unfold authorityActs
      cases hf : find ('@' : Byte) (m.drop 2) with
      | none =>
        rw [hf] at hmem
        exact List.mem_cons_of_mem _ hmem
      | some r =>
        rw [hf] at hmem
        exact List.mem_cons_of_mem _ (List.mem_append_right _ hmem)
    simp [Parts.acts, hs, hauth]

theorem assignPort_of_mem_acts (h : .assignPort s u ∈ p.acts) :
    p.hostPort ≠ [] ∧ ∃ q, hostCut p.hostPort = some q ∧ .assignPort s u ∈ portActs p.uri q.2 := by
  have hinfo : ∀ i, .assignPort s u ∉ userinfoActs i := by
    intro i
    unfold userinfoActs
    split <;> simp
  have hfile : ∀ f, .assignPort s u ∉ fileActs f := by
    intro f
    unfold fileActs
    split
    · simp
    · split <;> simp
  have hpath : ∀ f, .assignPort s u ∉ pathActs f := by
    intro f
    unfold pathActs
    split <;> simp [hfile]
  have hscheme : ∀ f, .assignPort s u ∉ schemeActs f := by
    intro f
    unfold schemeActs
    split <;> simp
  have helim : ∀ (o : Option Bytes) (f : Bytes → List Act), .assignPort s u ∈ o.elim [] f →
      ∃ m, o = some m ∧ .assignPort s u ∈ f m := by
    rintro (_ | m) f hm
    · cases hm
    · exact ⟨m, rfl, hm⟩
  have hhost : .assignPort s u ∈ hostPortActs p.uri p.hostPort := by
    obtain ⟨m, hm, hmem⟩ :
        ∃ m, p.ssAuthority = some m ∧ .assignPort s u ∈ authorityActs p.uri m := by
      simp only [Parts.acts, List.mem_append, or_assoc] at h
      obtain h | h | h | h | h := h
      · obtain ⟨m, -, hm⟩ := helim _ _ h
        exact absurd hm (hscheme m)
      · exact helim _ _ h
      · simp at h
      · obtain ⟨m, -, hm⟩ := helim _ _ h
        exact absurd hm (hpath m)
      · split_ifs at h
        · cases h
        · simp only [List.mem_append] at h
          obtain (h | h) | h := h
          · obtain ⟨m, -, hm⟩ := helim _ _ h
            simp [queryActs] at hm
          · obtain ⟨m, -, hm⟩ := helim _ _ h
            simp [fragActs] at hm
          · simp at h
    simp only [Parts.hostPort, hm, Option.elim]
    unfold authorityActs at hmem
    cases hf : find ('@' : Byte) (m.drop 2) with
    | none => simpa [hf] using hmem
    | some r => simpa [hf, hinfo] using hmem
  rw [hostPortActs_eq] at hhost
  split_ifs at hhost with hh
  · cases hhost
  · refine ⟨hh, ?_⟩
    cases hq : hostCut p.hostPort with
    | none => simp [hq] at hhost
    | some q => exact ⟨q, rfl, by simpa [hq] using hhost⟩

/-! The well-known port is that of the scheme. -/

/-- The scheme; empty where there is none. -/
def Parts.scheme (p : Parts) : Bytes := (p.schemeColon.getD []).dropLast

theorem prefixToWellKnownPort_uri (h : (parts u).hostPort ≠ []) :
    prefixToWellKnownPort (parts u).uri = toWellKnownPort (parts u).scheme := by
  cases hs : (parts u).schemeColon with
  | some m =>
    obtain ⟨a, rfl, ha⟩ := of_matchSchemeColon hs
    have hcolon : (':' : Byte) ∉ a := fun hc => ha _ hc (by decide)
    simp only [Parts.uri, Parts.scheme, hs, Option.getD_some, List.append_assoc,
      List.dropLast_concat]
    exact prefixToWellKnownPort_eq hcolon
  | none =>
    cases hauth : (parts u).ssAuthority with
    | none => simp [Parts.hostPort, hauth] at h
    | some m =>
      obtain ⟨a, rfl, -⟩ := of_matchSsAuthority hauth
      -- no line of the table starts with a slash, and none is empty
      have hline : ∀ l ∈ wellKnownPorts, l.1.isPrefixOf (lit "//" ++ a) = false := by
        have hhead : ∀ l ∈ wellKnownPorts, ∃ c w, l.1 = c :: w ∧ c ≠ ('/' : Byte) := by
          simp [wellKnownPorts, lit]
        intro l hl
        obtain ⟨c, w, hl', hc⟩ := hhead l hl
        rw [hl']
        simp [lit, List.isPrefixOf, hc]
      have hfind : wellKnownPorts.find? (fun l => l.1.isPrefixOf (lit "//" ++ a)) = none :=
        List.find?_eq_none.2 fun l hl => by simp [hline l hl]
      have hnone : toWellKnownPort [] = 0 := by decide +kernel
      simp only [Parts.uri, Parts.scheme, hs, hauth, Option.getD_some, Option.getD_none,
        List.nil_append, List.dropLast_nil, hnone, prefixToWellKnownPort, hfind]

/-! What the two ports get. -/

/-- Text behind a host that is not a port. -/
def Junk (rest : Bytes) : Prop := rest ≠ [] ∧ rest.head? ≠ some (':' : Byte)

instance : Decidable (Junk s) := inferInstanceAs (Decidable (_ ∧ _))

/-- `uri_port` reads the text and `uri_auto_port` is assigned it; of an empty text the second gets
the well-known port. -/
structure GivesPort (asserts : Bool) (src : Codec) (scheme port : Bytes) (comps comps' : Comps) :
    Prop where
  uriPort : ∀ c, comps .port = some c →
    ∃ c', c.clear.read asserts .port src port = .ok c' ∧ comps' .port = some c'
  uriAutoPort : ∀ ty n, comps .autoPort = some (.autoPort ty n) →
    ∃ m, comps' .autoPort = some (.autoPort ty m) ∧
      (if port = [] then some (ty.cast (toWellKnownPort scheme)) else numerify ty port) = some m

theorem clear_eq_some (h : comps t = some c) : comps.clear t = some c.clear := by
  simp [Comps.clear, h]

theorem of_clear_eq_some (h : comps.clear t = some c) : ∃ d, comps t = some d ∧ d.clear = c :=
  Option.map_eq_some_iff.1 h

theorem read_nil : c.clear.read asserts t src [] = .ok c.clear := by
  cases c with
  | str codec s => simp [ReadComp.clear, ReadComp.read, codecCvtAppend_nil]
  | port ty n => simp [ReadComp.clear, ReadComp.read]
  | autoPort ty n => simp [ReadComp.clear, ReadComp.read]

theorem autoPort_of_assignPort {ty : CInt} {n : ℤ} {port : Bytes}
    (h : (ReadComp.autoPort ty n).assignPort port u = .ok c) : ∃ m, c = .autoPort ty m ∧
      (if port = [] then some (ty.cast (prefixToWellKnownPort u)) else numerify ty port) =
        some m := by
  unfold ReadComp.assignPort at h
  dsimp only at h
  split_ifs at h ⊢
  · exact ⟨_, (Except.ok.inj h).symm, rfl⟩
  · cases hn : numerify ty port with
    | none => simp [hn] at h
    | some m =>
      rw [hn] at h
      exact ⟨m, (Except.ok.inj h).symm, rfl⟩

section Read

variable {host rest port : Bytes}

/-- Nothing is read for an automatic port; it is assigned. -/
theorem text_autoPort : p.text .autoPort = [] := by
  cases ha : p.ssAuthority with
  | none => by_cases h : p.queryFrag = [] <;> simp [Parts.text, Parts.acts, ha, h]
  | some m => by_cases h : p.queryFrag = [] <;> simp [Parts.text, Parts.acts, ha, h]

/-- A component of a reader that succeeded has read its part. -/
theorem comp_of_read (ht : t ≠ .autoPort) (h : read asserts src u comps = .ok comps')
    (hc : comps t = some c) : ∃ c',
      c.clear.read asserts t src ((parts (trim u)).text t) = .ok c' ∧ comps' t = some c' := by
  rw [read, acts_eq_parts] at h
  by_cases hm : t ∈ (parts (trim u)).acts.filterMap Act.tag
  · obtain ⟨a, ha, hat⟩ := List.mem_filterMap.1 hm
    cases a with
    | fail e => cases hat
    | assignPort s uri => cases hat
    | doRead t' s =>
      cases Option.some.inj hat
      rw [text_of_mem_acts ha]
      exact runActs_at h nodup_targets_acts ha rfl (clear_eq_some hc)
  · have hoff : t ∉ (parts (trim u)).acts.filterMap Act.target := by
      intro ht'
      obtain ⟨a, ha, hat⟩ := List.mem_filterMap.1 ht'
      cases a with
      | fail e => cases hat
      | assignPort s uri => exact ht (Option.some.inj hat).symm
      | doRead t' s => exact hm (List.mem_filterMap.2 ⟨_, ha, hat⟩)
    rw [Parts.text, lastText_eq_none hm, Option.getD_none]
    exact ⟨c.clear, read_nil, by rw [runActs_off h hoff, clear_eq_some hc]⟩

theorem autoPort_of_read (hh : (parts (trim u)).hostPort ≠ [])
    (hm : .assignPort port (parts (trim u)).uri ∈ (parts (trim u)).acts)
    (h : read asserts src u comps = .ok comps') {ty : CInt} {n : ℤ}
    (hc : comps .autoPort = some (.autoPort ty n)) :
    ∃ m, comps' .autoPort = some (.autoPort ty m) ∧
      (if port = [] then some (ty.cast (toWellKnownPort (parts (trim u)).scheme))
        else numerify ty port) = some m := by
  rw [read, acts_eq_parts] at h
  obtain ⟨c', hon, hc'⟩ := runActs_at h nodup_targets_acts hm rfl (clear_eq_some hc)
  obtain ⟨m, rfl, hm⟩ := @autoPort_of_assignPort _ _ ty 0 _ hon
  rw [prefixToWellKnownPort_uri hh] at hm
  exact ⟨m, hc', hm⟩

/-- Both ports get what `assign_port` is given, where that is what follows a `':'` or nothing. -/
theorem givesPort_of_read (hh : (parts (trim u)).hostPort ≠ [])
    (hq : hostCut (parts (trim u)).hostPort = some (host, rest)) (hrest : portOf rest = port)
    (hm : .assignPort port (parts (trim u)).uri ∈ portActs (parts (trim u)).uri rest)
    (h : read asserts src u comps = .ok comps') :
    GivesPort asserts src (parts (trim u)).scheme port comps comps' := by
  constructor
  · intro c hc
    have htext : (parts (trim u)).text .port = port := by
      rw [Parts.text_port, hq]
      exact hrest
    rw [← htext]
    exact comp_of_read (by decide) h hc
  · intro ty n hc
    exact autoPort_of_read hh (mem_acts_of_hostPort hh hq hm) h hc

theorem assignPort_of_junk (hj : Junk rest) :
    portActs u rest = [.assignPort rest u] := by
  cases rest with
  | nil => exact absurd rfl hj.1
  | cons c m =>
    have hc : c ≠ ':' := fun e => hj.2 (by rw [e]; rfl)
    simp [portActs, hc]

/-- Reading fails for a reason that has nothing to do with where a port starts: there is no scheme
before the first `':'`, a component refuses its part, or the junk is no number for
`uri_auto_port`. -/
def FailsAnyway (asserts : Bool) (src : Codec) (p : Parts) (comps : Comps) (rest : Bytes) : Prop :=
  p.schemeColon = some [(':' : Byte)] ∨
    (∃ t c e, comps t = some c ∧ c.clear.read asserts t src (p.text t) = .error e) ∨
    ∃ ty n, comps .autoPort = some (.autoPort ty n) ∧ numerify ty rest = none

theorem read_junk_iff (hh : (parts (trim u)).hostPort ≠ [])
    (hq : hostCut (parts (trim u)).hostPort = some (host, rest)) (hj : Junk rest) :
    (∃ comps', read asserts src u comps = .ok comps') ↔
      ¬FailsAnyway asserts src (parts (trim u)) comps rest := by
  constructor
  · rintro ⟨comps', h⟩ (hs | ⟨t, c, e, hc, he⟩ | ⟨ty, n, hc, hn⟩)
    · have := schemeColon_of_read h
      rw [hs] at this
      exact this rfl
    · by_cases ht : t = .autoPort
      · rw [ht, text_autoPort, read_nil] at he
        cases he
      · obtain ⟨c', hc', -⟩ := comp_of_read ht h hc
        rw [he] at hc'
        cases hc'
    · have hm : .assignPort rest (parts (trim u)).uri ∈ (parts (trim u)).acts :=
        mem_acts_of_hostPort hh hq (by simp [assignPort_of_junk hj])
      obtain ⟨m, -, hm⟩ := autoPort_of_read hh hm h hc
      rw [if_neg hj.1, hn] at hm
      cases hm
  · intro h
    simp only [FailsAnyway, not_or, not_exists, not_and] at h
    obtain ⟨hs, hc, hn⟩ := h
    rw [read, acts_eq_parts, runActs_ok_iff nodup_targets_acts]
    intro a ha
    cases a with
    | fail e =>
      refine absurd ha (fail_not_mem_acts ?_ (by simp [hq]))
      cases hm : (parts (trim u)).schemeColon with
      | none => trivial
      | some m =>
        obtain ⟨b, rfl, -⟩ := of_matchSchemeColon hm
        intro hlen
        have hb : b = [] := by simpa using hlen
        rw [hm, hb] at hs
        exact hs rfl
    | doRead t s =>
      refine ⟨t, rfl, fun c hct => ?_⟩
      obtain ⟨d, hd, rfl⟩ := of_clear_eq_some hct
      have hread := hc t d
      rw [text_of_mem_acts ha] at hread
      cases hr : d.clear.read asserts t src s with
      | ok c' => exact ⟨c', hr⟩
      | error e => exact absurd hr (hread e hd)
    | assignPort s uri =>
      obtain ⟨-, q, hq', hmem⟩ := assignPort_of_mem_acts ha
      obtain rfl : (host, rest) = q := Option.some.inj (hq.symm.trans hq')
      rw [assignPort_of_junk hj, List.mem_singleton] at hmem
      obtain ⟨rfl, rfl⟩ := Act.assignPort.inj hmem
      refine ⟨.autoPort, rfl, fun c hct => ?_⟩
      obtain ⟨d, hd, rfl⟩ := of_clear_eq_some hct
      cases d with
      | str codec x => exact ⟨_, rfl⟩
      | port ty n => exact ⟨_, rfl⟩
      | autoPort ty n =>
        obtain ⟨m, hm⟩ := Option.ne_none_iff_exists'.1 (hn ty n hd)
        exact ⟨.autoPort ty m, by simp [Act.on, ReadComp.clear, ReadComp.assignPort, hj.1, hm]⟩

end Read

/-- A port is only what follows a `':'`: the two ports get the text behind the one right after the
host, an empty one where nothing follows, and any other text makes the reading fail. -/
def PortRule (asserts : Bool) (src : Codec) (u : Bytes) (comps : Comps) : Prop :=
  ∀ host rest, (parts (trim u)).hostPort ≠ [] →
    hostCut (parts (trim u)).hostPort = some (host, rest) →
    (∀ port, rest = (':' : Byte) :: port → ∀ comps', read asserts src u comps = .ok comps' →
      GivesPort asserts src (parts (trim u)).scheme port comps comps') ∧
    (rest = [] → ∀ comps', read asserts src u comps = .ok comps' →
      comps' .port = comps.clear .port ∧
        GivesPort asserts src (parts (trim u)).scheme [] comps comps') ∧
    (Junk rest → ∀ comps', read asserts src u comps ≠ .ok comps')

/-- Nothing asks for the `':'`, so junk behind a host stops the reader only where something else
does. -/
theorem port_rule_iff (asserts : Bool) (src : Codec) (u : Bytes) (comps : Comps) :
    PortRule asserts src u comps ↔ ∀ host rest, (parts (trim u)).hostPort ≠ [] →
      hostCut (parts (trim u)).hostPort = some (host, rest) → Junk rest →
        FailsAnyway asserts src (parts (trim u)) comps rest := by
  constructor
  · intro h host rest hh hq hj
    by_contra hf
    obtain ⟨comps', hok⟩ := (read_junk_iff hh hq hj).2 hf
    exact (h host rest hh hq).2.2 hj comps' hok
  · intro h host rest hh hq
    refine ⟨?_, ?_, ?_⟩
    · rintro port rfl comps' hok
      exact givesPort_of_read hh hq (by simp [portOf]) (by simp [portActs]) hok
    · rintro rfl comps' hok
      have hgives : GivesPort asserts src (parts (trim u)).scheme [] comps comps' :=
        givesPort_of_read hh hq (by simp [portOf]) (by simp [portActs]) hok
      refine ⟨?_, hgives⟩
      cases hc : comps .port with
      | none => rw [none_of_read hok hc, Comps.clear, hc, Option.map_none]
      | some c =>
        obtain ⟨c', hc', hp⟩ := hgives.uriPort c hc
        rw [read_nil] at hc'
        rw [hp, clear_eq_some hc, Except.ok.inj hc']
    · intro hj comps' hok
      exact (read_junk_iff hh hq hj).1 ⟨comps', hok⟩ (h host rest hh hq hj)

/-- A reader with both ports, as numbers. -/
def bothPorts (ty : CInt) : Comps
  | .port => some (.port ty 0)
  | .autoPort => some (.autoPort ty 0)
  | _ => none

theorem port_rule_fails_at_literal :
    (∃ comps', read true .urlEncoded (lit "http://[::1]80") (bothPorts .u16) = .ok comps' ∧
      comps' .port = some (.port .u16 0) ∧ comps' .autoPort = some (.autoPort .u16 80)) ∧
      ¬PortRule true .urlEncoded (lit "http://[::1]80") (bothPorts .u16) := by
  have hread : ∃ comps', read true .urlEncoded (lit "http://[::1]80") (bothPorts .u16) =
      .ok comps' ∧ comps' .port = some (.port .u16 0) ∧
        comps' .autoPort = some (.autoPort .u16 80) := by
    exact ⟨_, rfl, rfl, rfl⟩
  refine ⟨hread, fun h => ?_⟩
  obtain ⟨comps', hok, -⟩ := hread
  exact (h (lit "[::1]") (lit "80") (by decide) (by decide)).2.2 (by decide) comps' hok

end Jkl.Uri
