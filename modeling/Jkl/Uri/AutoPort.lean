import Jkl.Uri.CompSize
import Jkl.Uri.Digits
import Jkl.Uri.RoundTrip
import Mathlib.Data.List.Find

/-! An automatic port that is written is read back: the writer leaves out the port that the reader
finds by the scheme. -/
namespace Jkl.Uri

open Cut (find find_append find_eq_none find_eq_some)
open Jkl.Pb (CInt)

variable {asserts : Bool} {n : ℕ} {ty : CInt} {s r u info scheme host : Bytes} {comps : Comps}
  {as bs : List Act} {codec src : Codec}

/-! Digits. -/

theorem numerify_digits (h : ty.InRange n) : numerify ty (digits n) = some (n : ℤ) := by
  have hall : (digits n).all isDigit = true :=
    List.all_eq_true.2 fun c hc => isDigit_of_mem_digits hc
  have hneg : (digits n).head? ≠ some ('-' : Byte) := fun e =>
    absurd (isDigit_of_mem_digits (List.mem_of_mem_head? e)) (by decide)
  have hminus : (ty.signed && decide ((digits n).head? = some ('-' : Byte))) = false := by
    rw [decide_eq_false hneg, Bool.and_false]
  unfold numerify
  simp only [hminus, Bool.false_eq_true, if_false, digitsVal_digits]
  exact if_pos ⟨digits_ne_nil, hall, h⟩

/-- The text of a number fills the room its type reserves. -/
def FillsStorage (ty : CInt) (n : ℕ) : Prop := ty = .u8 ∧ 100 ≤ n ∨ ty = .u16 ∧ 10000 ≤ n

instance : Decidable (FillsStorage ty n) := inferInstanceAs (Decidable (_ ∧ _ ∨ _ ∧ _))

theorem fillsStorage_iff (hty : ty ≠ .bool) (hr : ty.InRange n) (hn : 1 ≤ n) (hn' : n ≤ 65535) :
    Num.intMaxBytes ty ≤ (digits n).length ↔ FillsStorage ty n := by
  have hlen : ∀ k, k + 1 ≤ (digits n).length ↔ 10 ^ k ≤ n := by
    intro k
    rw [digits_of_ne_zero (by omega), List.length_reverse, List.length_map]
    exact Nat.lt_digits_length_iff (by decide) n
  have hsmall : ∀ k, 5 ≤ k → ¬k + 1 ≤ (digits n).length := by
    intro k hk
    rw [hlen]
    have := Nat.pow_le_pow_right (show 0 < 10 by decide) hk
    omega
  cases ty with
  | bool => exact absurd rfl hty
  | u8 => exact (hlen 2).trans (by simp [FillsStorage])
  | u16 => exact (hlen 4).trans (by simp [FillsStorage])
  | i8 =>
    refine iff_of_false (fun h => ?_) (by simp [FillsStorage])
    have := (hlen 3).1 h
    simp [CInt.InRange, CInt.signed, CInt.bits] at hr
    omega
  | i16 => exact iff_of_false (hsmall 5 (by decide)) (by simp [FillsStorage])
  | i32 => exact iff_of_false (hsmall 10 (by decide)) (by simp [FillsStorage])
  | u32 => exact iff_of_false (hsmall 9 (by decide)) (by simp [FillsStorage])
  | i64 => exact iff_of_false (hsmall 20 (by decide)) (by simp [FillsStorage])
  | u64 => exact iff_of_false (hsmall 19 (by decide)) (by simp [FillsStorage])

/-! Well-known ports. -/

/-- `to_well_known_port`: the same lines without the colons. -/
def toWellKnownPort (scheme : Bytes) : ℕ :=
  match wellKnownPorts.find? fun p => p.1.dropLast = scheme with
  | some p => p.2
  | none => 0

theorem prefixToWellKnownPort_eq (h : (':' : Byte) ∉ scheme) :
    prefixToWellKnownPort (scheme ++ (':' : Byte) :: r) = toWellKnownPort scheme := by
  have hcolon : ∀ p ∈ wellKnownPorts,
      p.1 = p.1.dropLast ++ [(':' : Byte)] ∧ (':' : Byte) ∉ p.1.dropLast := by
    decide +kernel
  have hline : ∀ p ∈ wellKnownPorts,
      p.1.isPrefixOf (scheme ++ (':' : Byte) :: r) = decide (p.1.dropLast = scheme) := by
    intro p hp
    obtain ⟨hp₁, hp₂⟩ := hcolon p hp
    rw [Bool.eq_iff_iff, List.isPrefixOf_iff_prefix, decide_eq_true_iff]
    constructor
    · rintro ⟨w, hw⟩
      rw [hp₁, List.append_assoc, List.singleton_append] at hw
      have hfind := (find_append hp₂ (b := w)).symm.trans ((congrArg _ hw).trans (find_append h))
      exact congrArg Prod.fst (Option.some.inj hfind)
    · intro he
      rw [hp₁, he]
      exact ⟨r, by simp⟩
  have hfind := List.find?_congr hline
  unfold prefixToWellKnownPort toWellKnownPort
  exact hfind ▸ rfl

/-! Writing. -/

/-- Components with an automatic port, as a writer takes them. -/
def portWriter (scheme info host : Bytes) (n : Num) : WriteComps
  | .scheme => some (.str (by decide) .urlDecoded scheme)
  | .userinfo => some (.str (by decide) .urlDecoded info)
  | .host => some (.str (by decide) .urlDecoded host)
  | .autoPort => some (.autoPort n)
  | _ => none

/-- A reader that holds an automatic port only. -/
def portReader (ty : CInt) (m : ℤ) : Comps
  | .autoPort => some (.autoPort ty m)
  | _ => none

def writtenInfo (info : Bytes) : Bytes :=
  if info = [] then [] else (encodeUserinfo info).text ++ [('@' : Byte)]

/-- The port is written unless the scheme tells it. -/
def writtenPort (scheme : Bytes) (n : ℕ) : Bytes :=
  if n = toWellKnownPort scheme then [] else digits n

def colonWritten (port : Bytes) : Bytes := if port = [] then [] else [(':' : Byte)] ++ port

def writtenUri (scheme info host port : Bytes) : Bytes :=
  scheme ++ (':' : Byte) ::
    (lit "//" ++ (writtenInfo info ++ (escapeAppend .host host ++ colonWritten port)))

theorem stop_encodeUserinfo : (encodeUserinfo info).stop = none := by
  unfold encodeUserinfo
  cases find (':' : Byte) info <;> rfl

theorem encodeUserinfo_ok : encodeUserinfo info = .ok (encodeUserinfo info).text :=
  exact_encodeUserinfo.eq_ok stop_encodeUserinfo

theorem avoids_encodeUserinfo : Avoids (lit "/?#@") (encodeUserinfo info).text := by
  have hesc : ∀ s, Avoids (lit "/?#@") (escapeAppend .userinfo s) :=
    fun s => avoids_escapeAppend (by decide +kernel)
  unfold encodeUserinfo
  cases find (':' : Byte) info with
  | none => exact hesc info
  | some p =>
    simp only [Out.ok_append_ok]
    exact ((hesc p.1).append (avoids_singleton (by decide) (by decide))).append (hesc p.2)

theorem avoids_writtenInfo : Avoids (lit "/?#") (writtenInfo info) :=
  avoids_ite ((avoids_encodeUserinfo.mono (by decide)).append
    (avoids_singleton (by decide) (by decide)))

section Write

variable {hty : ty ≠ .bool ∧ ty.InRange n}

theorem stringify_nat : (Num.int ty n hty).stringify asserts =
    if asserts ∧ Num.intMaxBytes ty ≤ (digits n).length then .halt .assertion
    else .ok (digits n) := by
  have htext : (Num.int ty n hty).text = digits n := by simp [Num.text]
  rw [Num.stringify, htext]
  · rfl
  · intro b h
    cases h

theorem appendColonPortTo_eq (hn : 1 ≤ n) (hn' : n ≤ 65535) (hs : (':' : Byte) ∉ scheme) :
    (WriteComp.autoPort (.int ty n hty)).appendColonPortTo asserts (scheme ++ (':' : Byte) :: r) =
      if n ≠ toWellKnownPort scheme ∧ asserts ∧ FillsStorage ty n then .halt .assertion
      else .ok (colonWritten (writtenPort scheme n)) := by
  have hzero : (Num.int ty n hty).is 0 = false := decide_eq_false (by omega)
  have hknown : (Num.int ty n hty).is (prefixToWellKnownPort (scheme ++ (':' : Byte) :: r)) =
      decide (n = toWellKnownPort scheme) := by
    rw [prefixToWellKnownPort_eq hs]
    simp [Num.is]
  simp only [WriteComp.appendColonPortTo, hzero, hknown, stringify_nat, Bool.false_eq_true,
    false_or, decide_eq_true_eq, fillsStorage_iff hty.1 hty.2 hn hn']
  by_cases h : n = toWellKnownPort scheme
  · simp [writtenPort, colonWritten, ← h]
  · by_cases hf : asserts = true ∧ FillsStorage ty n
    · simp [h, hf]
    · simp [h, hf, writtenPort, colonWritten, digits_ne_nil]

theorem assignTo_portWriter (hs : IsScheme scheme) (hn : 1 ≤ n) (hn' : n ≤ 65535) :
    (portWriter scheme info host (.int ty n hty)).assignTo asserts .urlEncoded =
      if n ≠ toWellKnownPort scheme ∧ asserts ∧ FillsStorage ty n then .error .assertion
      else .ok (writtenUri scheme info host (writtenPort scheme n)) := by
  have hne : scheme ≠ [] := by
    rintro rfl
    exact hs
  have hcolon : (':' : Byte) ∉ scheme := (avoids_of_isScheme hs).not_mem (by decide)
  set c := portWriter scheme info host (.int ty n hty) with hc
  have hscheme : c.appendScheme asserts .urlEncoded = .ok (scheme ++ [(':' : Byte)]) := by
    simp [hc, WriteComps.appendScheme, portWriter, hne, codecCvtAppend, encodeAppend]
  have hinfo : c.appendUserinfo asserts .urlEncoded = .ok (writtenInfo info) := by
    by_cases h : info = []
    · simp [hc, WriteComps.appendUserinfo, portWriter, writtenInfo, h]
    · simp only [hc, WriteComps.appendUserinfo, portWriter, writtenInfo, h,
        WriteComp.nonEmpty_str, WriteComp.write_str, codecCvtAppend, encodeAppend]
      rw [encodeUserinfo_ok]
      simp [h]
  have hrest : c.appendPath asserts .urlEncoded ++
      (c.appendQuery asserts .urlEncoded ++ c.appendFrag asserts .urlEncoded) = .ok [] := by
    simp [hc, WriteComps.appendPath, WriteComps.appendDirPath, WriteComps.doWrite,
      WriteComps.appendQuery, WriteComps.appendFrag, portWriter]
  have hport : ∀ o, c.appendHostPort asserts .urlEncoded (.ok (scheme ++ (':' : Byte) :: o)) =
      if n ≠ toWellKnownPort scheme ∧ asserts ∧ FillsStorage ty n then
        .ok (scheme ++ (':' : Byte) :: (o ++ escapeAppend .host host)) ++ .halt .assertion
      else .ok (scheme ++ (':' : Byte) ::
        (o ++ (escapeAppend .host host ++ colonWritten (writtenPort scheme n)))) := by
    intro o
    simp only [hc, WriteComps.appendHostPort, WriteComps.doWrite, portWriter, Option.elim,
      WriteComp.write_str, codecCvtAppend, encodeAppend]
    simp only [reduceCtorEq, and_self, if_false, if_true, Out.ok_append_ok,
      List.append_assoc, List.cons_append, Out.text_ok, appendColonPortTo_eq hn hn' hcolon]
    split_ifs with h <;> simp
  have htext : c.appendTo asserts .urlEncoded =
      c.appendHostPort asserts .urlEncoded
        (.ok (scheme ++ (':' : Byte) :: (lit "//" ++ writtenInfo info))) := by
    have hauth : c .schemeAuthority = none ∧ c .ssAuthority = none ∧ c .authority = none ∧
        c .qmQueryFrag = none := ⟨rfl, rfl, rfl, rfl⟩
    simp only [WriteComps.appendTo, hauth, WriteComps.appendAuthority, hscheme, hinfo,
      Out.append_assoc, hrest, Out.append_ok_nil, Out.ok_append_ok]
    simp
  have hhost : ∀ k ∈ c .host, k.isAddress = false := by
    rintro k ⟨⟩
    rfl
  rw [WriteComps.assignTo_eq rfl hhost, htext, hport]
  split_ifs with h
  · rfl
  · simp [writtenUri]

end Write

/-! Reading. -/

/-- The reader passes over the step: it reads a part the reader has no component for. -/
def Act.Skipped (comps : Comps) : Act → Prop
  | doRead t _ => comps t = none
  | _ => False

theorem runActs_skipped (h : ∀ a ∈ as, a.Skipped comps) :
    runActs asserts src (as ++ bs) comps = runActs asserts src bs comps := by
  induction as with
  | nil => rfl
  | cons a as ih =>
    rw [List.forall_mem_cons] at h
    have ha : a.run asserts src comps = .ok comps := by
      cases a with
      | doRead t s =>
        have ht : comps t = none := h.1
        simp [Act.run, ht]
      | assignPort s u => exact h.1.elim
      | fail e => exact h.1.elim
    rw [List.cons_append, runActs, ha]
    exact ih h.2

/-- The host is a registered name, or one literal in brackets. -/
def IsHost (host : Bytes) : Prop :=
  (∀ x ∈ lit ":[]", x ∉ host) ∨ ∃ inner, host = [('[' : Byte)] ++ inner ++ [(']' : Byte)]

section Read

variable {port : Bytes}

/-- The text after the userinfo, as one of a host and a port. -/
theorem hostPort_writtenUri (hh : IsHost host) (hp : ∀ x ∈ port, isDigit x = true) :
    hostCut (escapeAppend .host host ++ colonWritten port) =
        some (escapeAppend .host host, colonWritten port) ∧
      Avoids (lit "/?#@") (escapeAppend .host host ++ colonWritten port) := by
  let c : Components :=
    ⟨[], [], [], host, port, [], [], [], .inl rfl, fun _ => rfl, hh, hp, .inl rfl⟩
  exact ⟨c.hostCut_hostPort, c.avoids_hostPort⟩

theorem trim_writtenUri (hs : IsScheme scheme) (hh : IsHost host)
    (hp : ∀ x ∈ port, isDigit x = true) :
    trim (writtenUri scheme info host port) = writtenUri scheme info host port := by
  have h : Avoids [] (writtenUri scheme info host port) := by
    have hslash : Avoids [] ((':' : Byte) :: lit "//") := by
      unfold Avoids
      decide +kernel
    have hrest : Avoids [] (writtenInfo info ++ (escapeAppend .host host ++ colonWritten port)) :=
      (avoids_writtenInfo.mono (by simp)).append
        ((hostPort_writtenUri hh hp).2.mono (by simp))
    exact ((avoids_of_isScheme hs).mono (by simp)).append (hslash.append hrest)
  apply trim_eq_self
  · intro x hx
    exact (h x (List.mem_of_mem_head? hx)).2
  · intro x hx
    exact (h x (List.mem_of_getLast? hx)).2

theorem find_writtenInfo {m : Bytes} (hm : ('@' : Byte) ∉ m) :
    find ('@' : Byte) (writtenInfo info ++ m) =
      if info = [] then none else some ((encodeUserinfo info).text, m) := by
  by_cases h : info = []
  · simp [writtenInfo, h, find_eq_none.2 hm]
  · have hinfo : ('@' : Byte) ∉ (encodeUserinfo info).text :=
      avoids_encodeUserinfo.not_mem (by decide)
    simp [writtenInfo, h, find_append hinfo]

theorem skipped_userinfoActs {m : ℤ} :
    ∀ a ∈ userinfoActs s, a.Skipped (portReader ty m) := by
  unfold userinfoActs
  cases find (':' : Byte) s with
  | none => simp [Act.Skipped, portReader]
  | some p => simp [Act.Skipped, portReader]

theorem acts_writtenUri (hs : IsScheme scheme) (hhost : host ≠ []) (hh : IsHost host)
    (hp : ∀ x ∈ port, isDigit x = true) :
    ∃ as, acts (writtenUri scheme info host port) =
        as ++ (portActs (writtenUri scheme info host port) (colonWritten port) ++
          [.doRead .schemeAuthority (writtenUri scheme info host port)]) ∧
      ∀ ty m, ∀ a ∈ as, a.Skipped (portReader ty m) := by
  obtain ⟨hcut, havoid⟩ := hostPort_writtenUri hh hp
  set m := escapeAppend .host host ++ colonWritten port with hm
  have hne : m ≠ [] := by
    have := @length_le_escapeAppend .host host
    intro h
    rw [hm, List.append_eq_nil_iff] at h
    rw [h.1] at this
    exact hhost (List.length_eq_zero_iff.1 (Nat.le_zero.1 this))
  have hscheme := matchSchemeColon_eq (r := lit "//" ++ (writtenInfo info ++ m))
    fun x hx => (avoids_of_isScheme hs x hx).1
  have hauth : matchSsAuthority (lit "//" ++ (writtenInfo info ++ m)) =
      (some (lit "//" ++ (writtenInfo info ++ m)), []) := by
    have := matchSsAuthority_eq (a := writtenInfo info ++ m) (r := [])
      (fun x hx => (avoids_writtenInfo.append (havoid.mono (by decide)) x hx).1) (by simp)
    rwa [List.append_nil] at this
  have huri : writtenUri scheme info host port =
    scheme ++ (':' : Byte) :: (lit "//" ++ (writtenInfo info ++ m)) := rfl
  have hlen : (scheme ++ [(':' : Byte)]).length ≠ 1 := by
    intro h
    have : scheme = [] := by simpa using h
    rw [this] at hs
    exact hs
  have hdrop : (lit "//" ++ (writtenInfo info ++ m)).drop 2 = writtenInfo info ++ m := by
    simp [lit]
  refine ⟨schemeActs (scheme ++ [(':' : Byte)]) ++
    .doRead .ssAuthority (lit "//" ++ (writtenInfo info ++ m)) ::
      ((if info = [] then [] else userinfoActs (encodeUserinfo info).text) ++
        [.doRead .hostPort m, .doRead .host (escapeAppend .host host)]), ?_, ?_⟩
  · have hfind := @find_writtenInfo info m (havoid.not_mem (x := '@') (by decide))
    have hmatch : matchPath [] = (none, []) := rfl
    have hnil : writtenInfo [] = [] := rfl
    rw [huri] at *
    simp only [acts, hscheme, hauth, hmatch, Option.getD_some, Option.elim, authorityActs, hdrop,
      hfind]
    by_cases h : info = []
    · subst h
      simp [hnil, hostPortActs_eq, hne, hcut]
    · simp [h, hostPortActs_eq, hne, hcut]
  · intro ty m' a ha
    have huser : ∀ a ∈ userinfoActs (encodeUserinfo info).text, a.Skipped (portReader ty m') :=
      skipped_userinfoActs
    simp only [schemeActs, hlen, if_false, List.mem_append, List.mem_cons, List.not_mem_nil,
      or_false] at ha
    obtain (rfl | rfl) | rfl | ha | rfl | rfl := ha
    · rfl
    · rfl
    · rfl
    · split_ifs at ha
      · cases ha
      · exact huser a ha
    · rfl
    · rfl

theorem assignPort_writtenPort (hs : IsScheme scheme) (hr : ty.InRange n) {m : ℤ} :
    (ReadComp.autoPort ty m).assignPort (writtenPort scheme n)
      (writtenUri scheme info host port) = .ok (.autoPort ty n) := by
  by_cases h : n = toWellKnownPort scheme
  · have hcolon : (':' : Byte) ∉ scheme := (avoids_of_isScheme hs).not_mem (by decide)
    have hcast : ty.cast (n : ℤ) = n := CInt.cast_of_inRange hr
    simp only [ReadComp.assignPort, writtenPort, if_true, writtenUri,
      prefixToWellKnownPort_eq hcolon, ← h, hcast]
  · simp only [ReadComp.assignPort, writtenPort, if_neg h, digits_ne_nil, if_false,
      numerify_digits hr]

theorem read_writtenUri (hs : IsScheme scheme) (hhost : host ≠ []) (hh : IsHost host)
    (hr : ty.InRange n) (m : ℤ) :
    read asserts .urlEncoded (writtenUri scheme info host (writtenPort scheme n))
      (portReader ty m) = .ok (portReader ty n) := by
  have hp : ∀ x ∈ writtenPort scheme n, isDigit x = true := by
    intro x hx
    unfold writtenPort at hx
    split_ifs at hx
    · cases hx
    · exact isDigit_of_mem_digits hx
  obtain ⟨as, hacts, hskip⟩ := @acts_writtenUri info _ _ _ hs hhost hh hp
  have hclear : (portReader ty m).clear = portReader ty 0 := by
    funext t
    cases t <;> rfl
  have hassign := @assignPort_writtenPort n ty info scheme host (writtenPort scheme n) hs hr 0
  have hupdate : Function.update (portReader ty 0) .autoPort (some (.autoPort ty n)) =
      portReader ty n := by
    funext t
    cases t <;> rfl
  rw [read, trim_writtenUri hs hh hp, hacts, hclear, runActs_skipped (hskip ty 0)]
  set uri := writtenUri scheme info host (writtenPort scheme n)
  have hrun : (Act.assignPort (writtenPort scheme n) uri).run asserts .urlEncoded
      (portReader ty 0) = .ok (portReader ty n) := by
    rw [← hupdate]
    exact congrArg (Except.map _) hassign
  have hauth : runActs asserts .urlEncoded [.doRead .schemeAuthority uri] (portReader ty n) =
    .ok (portReader ty n) := rfl
  have hport : runActs asserts .urlEncoded (.assignPort (writtenPort scheme n) uri ::
      [.doRead .schemeAuthority uri]) (portReader ty 0) = .ok (portReader ty n) := by
    rw [runActs, hrun]
    exact hauth
  by_cases h : writtenPort scheme n = []
  · rw [h] at hport ⊢
    exact hport
  · rw [colonWritten, if_neg h]
    exact hport

end Read

/-- Writing the port and reading it back gives the port; it is written where the scheme does not
tell it. -/
def RoundTrips (asserts : Bool) (scheme info host : Bytes) (n : ℕ) (num : Num) (reader : Comps)
    (ty : CInt) : Prop :=
  ∃ text comps, (portWriter scheme info host num).assignTo asserts .urlEncoded = .ok text ∧
    text = scheme ++ lit "://" ++ writtenInfo info ++ escapeAppend .host host ++
      (if n = toWellKnownPort scheme then [] else (':' : Byte) :: digits n) ∧
    read asserts .urlEncoded text reader = .ok comps ∧ comps .autoPort = some (.autoPort ty n)

/-- The one thing in the way is the assertion on a number that fills its storage. -/
theorem auto_port_round_trips_iff (asserts : Bool) (scheme info host : Bytes) (n : ℕ)
    (ty ty' : CInt) (m : ℤ) (hs : IsScheme scheme) (hhost : host ≠ []) (hh : IsHost host)
    (hn : 1 ≤ n) (hn' : n ≤ 65535) (hty : ty ≠ .bool ∧ ty.InRange n)
    (hty' : ty' ≠ .bool ∧ ty'.InRange n) :
    RoundTrips asserts scheme info host n (.int ty n hty) (portReader ty' m) ty' ↔
      ¬(asserts ∧ n ≠ toWellKnownPort scheme ∧ FillsStorage ty n) := by
  have hassign := @assignTo_portWriter asserts n ty info scheme host hty hs hn hn'
  constructor
  · rintro ⟨text, comps, hw, -⟩ ⟨ha, hp, hf⟩
    rw [hassign, if_pos ⟨hp, ha, hf⟩] at hw
    cases hw
  · intro h
    rw [if_neg fun hc => h ⟨hc.2.1, hc.1, hc.2.2⟩] at hassign
    refine ⟨_, _, hassign, ?_, read_writtenUri hs hhost hh hty'.2 m, rfl⟩
    by_cases hp : n = toWellKnownPort scheme
    · simp [writtenUri, writtenPort, colonWritten, ← hp, lit]
    · simp [writtenUri, writtenPort, colonWritten, hp, digits_ne_nil, lit]

theorem auto_port_round_trips_https :
    RoundTrips true (lit "https") (lit "me@") (lit "[::1]") 8443
      (.int .u16 8443 (by decide +kernel)) (portReader .u16 0) .u16 := by
  refine (auto_port_round_trips_iff true (lit "https") (lit "me@") (lit "[::1]") 8443 .u16 .u16 0
    (by decide +kernel) (by decide) (.inr ⟨lit "::1", by decide⟩) (by decide) (by decide)
    (by decide +kernel) (by decide +kernel)).2 ?_
  decide +kernel

/-- Five digits leave no byte of an `unsigned short`'s storage free. -/
theorem auto_port_stops_at_storage :
    (portWriter (lit "http") [] (lit "host") (.int .u16 65535 (by decide +kernel))).assignTo true
        .urlEncoded = .error .assertion ∧
      ¬RoundTrips true (lit "http") [] (lit "host") 65535 (.int .u16 65535 (by decide +kernel))
        (portReader .u16 0) .u16 := by
  have h : (portWriter (lit "http") [] (lit "host")
      (.int .u16 65535 (by decide +kernel))).assignTo true .urlEncoded = .error .assertion := by
    rfl
  refine ⟨h, ?_⟩
  rintro ⟨text, comps, hw, -⟩
  rw [h] at hw
  cases hw

end Jkl.Uri
