import Jkl.Uri.CompSize
import Jkl.Uri.Writer
import Mathlib.Data.List.Find

/-! Whether what the writer stores stays within what it reserved. Its output is cut into slots,
each with its share of the size; two kinds of slot can need more than their share, and whether
that shows depends on what the contents of the others leave. -/
namespace Jkl.Uri

open Jkl.Uri.WriteComp (tame_write tame_write_of_ne tame_appendColonPortTo)

namespace WriteComps

section Slots

open Slot (room)

variable (asserts : Bool) (c : WriteComps) (dest : Codec)

/-- A delimiter that the size counts. -/
def delim (s : Bytes) : Slot := room s.length s

def compSlots (t : Tag) : List Slot := (c t).elim [] (WriteComp.slots asserts dest)

def schemeSlots : List Slot :=
  match c .schemeColon with
  | some k => k.slots asserts dest
  | none =>
    match c .scheme with
    | some k => if k.nonEmpty then k.slots asserts dest ++ [delim [':']] else []
    | none => []

def userinfoSlots : List Slot :=
  match c .userinfoAt with
  | some k => k.slots asserts dest
  | none =>
    match c .userinfo with
    | some k => if k.nonEmpty then k.slots asserts dest ++ [delim ['@']] else []
    | none =>
      match c .user with
      | none => []
      | some k =>
        if k.nonEmpty then
          k.slots asserts dest ++
            (match c .password with
              | some p => if p.nonEmpty then delim [':'] :: p.slots asserts dest else []
              | none => []) ++ [delim ['@']]
        else []

/-- The scheme with its colon. A scheme is copied. -/
def schemeText : Bytes :=
  match c .schemeColon with
  | some (.str _ _ s) => s
  | none =>
    match c .scheme with
    | some (.str _ _ s) => if s = [] then [] else s ++ [(':' : Byte)]
    | none => []

def hostPortSlots : List Slot :=
  match c .hostPort with
  | some k => k.slots asserts dest
  | none =>
    c.compSlots asserts dest .host ++
      match c .port with
      | some k => if k.nonEmpty then delim [':'] :: k.slots asserts dest else []
      | none =>
        match c .autoPort with
        | some k => [k.colonPortSlot asserts (prefixToWellKnownPort c.schemeText)]
        | none => []

def authoritySlots : List Slot :=
  match c .ssAuthority with
  | some k => k.slots asserts dest
  | none =>
    match c .authority with
    | some k => delim (lit "//") :: k.slots asserts dest
    | none => delim (lit "//") :: (c.userinfoSlots asserts dest ++ c.hostPortSlots asserts dest)

def prefixSlots : List Slot :=
  match c .schemeAuthority with
  | some k => k.slots asserts dest
  | none => c.schemeSlots asserts dest ++ c.authoritySlots asserts dest

def dirPathSlots : List Slot :=
  match c .dirPath with
  | some k => k.slots asserts dest ++ [k.slashSlot dest]
  | none => []

def pathSlots : List Slot :=
  match c .path with
  | some k => k.slots asserts dest
  | none =>
    c.dirPathSlots asserts dest ++
      match c .file with
      | some k => k.slots asserts dest
      | none =>
        c.compSlots asserts dest .fileName ++
          match c .fileDotExt with
          | some k => k.slots asserts dest
          | none =>
            match c .fileExt with
            | some k => delim ['.'] :: k.slots asserts dest
            | none => []

def querySlots : List Slot :=
  match c .qmQuery with
  | some k => k.slots asserts dest
  | none =>
    match c .query with
    | some k => if k.nonEmpty then delim ['?'] :: k.slots asserts dest else []
    | none => []

def fragSlots : List Slot :=
  match c .sharpFrag with
  | some k => k.slots asserts dest
  | none =>
    match c .frag with
    | some k => if k.nonEmpty then delim ['#'] :: k.slots asserts dest else []
    | none => []

def queryFragSlots : List Slot :=
  match c .qmQueryFrag with
  | some k => k.slots asserts dest
  | none => c.querySlots asserts dest ++ c.fragSlots asserts dest

/-- The steps of `append_to`. -/
def slots : List Slot :=
  c.prefixSlots asserts dest ++ c.pathSlots asserts dest ++ c.queryFragSlots asserts dest

end Slots

variable {asserts : Bool} {c : WriteComps} {dest : Codec} {t : Tag} {o : Out} {s : Bytes}

open Slot

@[simp] theorem written_slots_comp (k : WriteComp t) :
    written (k.slots asserts dest) = k.write asserts dest := k.slots_eq.1

@[simp] theorem reserved_slots_comp (k : WriteComp t) :
    reserved (k.slots asserts dest) = k.maxWriteSize dest := k.slots_eq.2.1

@[simp] theorem out_delim : (delim s).out = .ok s := rfl

@[simp] theorem reserve_delim : (delim s).reserve = s.length := rfl

@[simp] theorem written_compSlots :
    written (c.compSlots asserts dest t) = c.doWrite asserts dest t := by
  unfold compSlots doWrite
  cases c t <;> simp

@[simp] theorem reserved_compSlots : reserved (c.compSlots asserts dest t) = c.mxsize dest t := by
  unfold compSlots mxsize
  cases c t <;> simp

theorem scheme_slots : written (c.schemeSlots asserts dest) = c.appendScheme asserts dest ∧
    reserved (c.schemeSlots asserts dest) = c.schemeSize dest := by
  unfold schemeSlots appendScheme schemeSize
  cases c .schemeColon with
  | some k => simp
  | none =>
    cases c .scheme with
    | none => simp
    | some k =>
      dsimp only
      split_ifs <;> simp

theorem userinfo_slots : written (c.userinfoSlots asserts dest) = c.appendUserinfo asserts dest ∧
    reserved (c.userinfoSlots asserts dest) = c.userinfoSize dest := by
  unfold userinfoSlots appendUserinfo userinfoSize
  cases c .userinfoAt with
  | some k => simp
  | none =>
    cases c .userinfo with
    | some k =>
      dsimp only
      split_ifs <;> simp
    | none =>
      cases c .user with
      | none => simp
      | some k =>
        dsimp only
        split_ifs
        · cases c .password with
          | none => simp
          | some p =>
            dsimp only
            split_ifs
            · simp [Out.append_assoc, Nat.add_assoc]
            · simp
        · simp

theorem appendScheme_eq (asserts : Bool) (c : WriteComps) (dest : Codec) :
    c.appendScheme asserts dest = .ok c.schemeText := by
  have hcopy : ∀ {t}, t = Tag.scheme ∨ t = .schemeColon → ∀ codec s,
      codecCvtAppend asserts t dest codec s = .ok s := by
    rintro t (rfl | rfl) codec s <;> unfold codecCvtAppend <;> split_ifs <;> rfl
  unfold appendScheme schemeText
  cases c .schemeColon with
  | some k =>
    cases k with
    | str _ codec s => exact hcopy (.inr rfl) codec s
  | none =>
    cases c .scheme with
    | none => rfl
    | some k =>
      cases k with
      | str _ codec s => by_cases hs : s = [] <;> simp [hs, hcopy (.inl rfl)]

/-- No line of the table reaches over the scheme. -/
theorem prefixToWellKnownPort_append (s r : Bytes) :
    prefixToWellKnownPort (s ++ ('/' : Byte) :: r) = prefixToWellKnownPort s := by
  have hslash : ∀ p ∈ wellKnownPorts, ('/' : Byte) ∉ p.1 := by decide +kernel
  have hline : ∀ p ∈ wellKnownPorts,
      p.1.isPrefixOf (s ++ ('/' : Byte) :: r) = p.1.isPrefixOf s := by
    intro p hp
    rw [Bool.eq_iff_iff, List.isPrefixOf_iff_prefix, List.isPrefixOf_iff_prefix]
    refine ⟨fun h => ?_, fun h => h.trans (List.prefix_append _ _)⟩
    refine List.prefix_of_prefix_length_le h (List.prefix_append s _) ?_
    by_contra hlen
    obtain ⟨w, hw⟩ := List.prefix_of_prefix_length_le (List.prefix_append s (('/' : Byte) :: r)) h
      (Nat.le_of_not_le hlen)
    obtain ⟨v, hv⟩ := h
    rw [← hw, List.append_assoc, List.append_cancel_left_eq] at hv
    cases w with
    | nil =>
      rw [List.append_nil] at hw
      exact hlen (by rw [hw])
    | cons x w =>
      obtain ⟨rfl, -⟩ := List.cons.inj hv
      exact hslash p hp (by rw [← hw]; simp)
  unfold prefixToWellKnownPort
  rw [List.find?_congr hline]

theorem exists_text_append (o p : Out) : ∃ r, (o ++ p).text = o.text ++ r := by
  cases h : o.stop with
  | some e => exact ⟨[], by rw [Out.append_of_stop h, List.append_nil]⟩
  | none => exact ⟨p.text, (Out.append_of_none h).1⟩

theorem hostPort_slots (asserts : Bool) (dest : Codec)
    (ho : ∃ r, o.text = c.schemeText ++ ('/' : Byte) :: r) :
    o ++ written (c.hostPortSlots asserts dest) = c.appendHostPort asserts dest o ∧
      reserved (c.hostPortSlots asserts dest) = c.hostPortSize dest := by
  unfold hostPortSlots appendHostPort hostPortSize
  cases c .hostPort with
  | some k => simp
  | none =>
    dsimp only
    cases c .port with
    | some k =>
      dsimp only
      split_ifs <;> simp [Out.append_assoc]
    | none =>
      cases hk : c .autoPort with
      | none => simp [mxsize, hk]
      | some k =>
        obtain ⟨r, hr⟩ := ho
        obtain ⟨r', hr'⟩ := exists_text_append o (c.doWrite asserts dest .host)
        have hport : prefixToWellKnownPort (o ++ c.doWrite asserts dest .host).text =
            prefixToWellKnownPort c.schemeText := by
          rw [hr', hr, List.append_assoc, List.cons_append, prefixToWellKnownPort_append]
        have hcov := k.covers_appendColonPortTo asserts dest
          (o ++ c.doWrite asserts dest .host).text
        rw [hport] at hcov
        dsimp only
        rw [written_append, reserved_append, hcov.written, hcov.reserved]
        simp [mxsize, hk, Out.append_assoc]

theorem authority_slots (asserts : Bool) (c : WriteComps) (dest : Codec)
    (ho : o.text = c.schemeText) (hs : o.stop = none) :
    o ++ written (c.authoritySlots asserts dest) = c.appendAuthority asserts dest o ∧
      reserved (c.authoritySlots asserts dest) = c.authoritySize dest := by
  unfold authoritySlots appendAuthority authoritySize
  cases c .ssAuthority with
  | some k => simp
  | none =>
    cases c .authority with
    | some k => simp [lit, Out.append_assoc]
    | none =>
      obtain ⟨hu, hus⟩ := @userinfo_slots asserts c dest
      have hslash : (o ++ .ok (lit "//")).text = c.schemeText ++ lit "//" := by
        rw [(Out.append_of_none hs).1, ho, Out.text_ok]
      obtain ⟨r, hr⟩ := exists_text_append (o ++ .ok (lit "//")) (c.appendUserinfo asserts dest)
      obtain ⟨hh, hhs⟩ := hostPort_slots asserts dest
        (o := o ++ .ok (lit "//") ++ c.appendUserinfo asserts dest)
        ⟨('/' : Byte) :: r, by rw [hr, hslash, List.append_assoc]; rfl⟩
      dsimp only
      constructor
      · rw [written_cons, written_append, hu, out_delim, ← Out.append_assoc, ← Out.append_assoc,
          hh]
      · rw [reserved_cons, reserved_append, hus, hhs, reserve_delim, Nat.add_assoc]
        rfl

theorem prefix_slots : written (c.prefixSlots asserts dest) =
      (match c .schemeAuthority with
        | some k => k.write asserts dest
        | none => c.appendAuthority asserts dest (c.appendScheme asserts dest)) ∧
    reserved (c.prefixSlots asserts dest) =
      (match c .schemeAuthority with
        | some k => k.maxWriteSize dest
        | none => c.schemeSize dest + c.authoritySize dest) := by
  unfold prefixSlots
  cases c .schemeAuthority with
  | some k => simp
  | none =>
    obtain ⟨hs, hss⟩ := @scheme_slots asserts c dest
    have hscheme := appendScheme_eq asserts c dest
    obtain ⟨ha, has⟩ := authority_slots asserts c dest
      (o := c.appendScheme asserts dest) (by rw [hscheme, Out.text_ok])
      (by rw [hscheme, Out.stop_ok])
    constructor
    · rw [written_append, hs, ha]
    · rw [reserved_append, hss, has]

@[simp] theorem reserve_slashSlot (k : WriteComp .dirPath) : (k.slashSlot dest).reserve = 0 := by
  cases k
  rfl

theorem written_slashSlot (k : WriteComp .dirPath) :
    k.write asserts dest ++ (k.slashSlot dest).out =
      k.write asserts dest ++ .ok (dirSlash (k.write asserts dest).text) := by
  cases k with
  | str _ codec s =>
    cases h : (codecCvtAppend asserts .dirPath dest codec s).stop with
    | some e => rw [WriteComp.write_str, Out.append_of_stop h, Out.append_of_stop h]
    | none =>
      simp only [WriteComp.slashSlot, room, dirSlash, WriteComp.write_str,
        getLast_codecCvtAppend_dirPath h]

theorem dirPath_slots : written (c.dirPathSlots asserts dest) = c.appendDirPath asserts dest ∧
    reserved (c.dirPathSlots asserts dest) = c.mxsize dest .dirPath := by
  unfold dirPathSlots appendDirPath mxsize
  cases c .dirPath with
  | some k => simp [written_slashSlot]
  | none => simp

theorem path_slots : written (c.pathSlots asserts dest) = c.appendPath asserts dest ∧
    reserved (c.pathSlots asserts dest) = c.pathSize dest := by
  unfold pathSlots appendPath pathSize
  cases c .path with
  | some k => simp
  | none =>
    simp only [written_append, reserved_append, dirPath_slots.1, dirPath_slots.2]
    cases c .file with
    | some k => simp
    | none => cases c .fileDotExt <;> cases c .fileExt <;> simp

theorem query_slots : written (c.querySlots asserts dest) = c.appendQuery asserts dest ∧
    reserved (c.querySlots asserts dest) = c.querySize dest := by
  unfold querySlots appendQuery querySize
  cases c .qmQuery with
  | some k => simp
  | none =>
    cases c .query with
    | none => simp
    | some k =>
      dsimp only
      split_ifs <;> simp

theorem frag_slots : written (c.fragSlots asserts dest) = c.appendFrag asserts dest ∧
    reserved (c.fragSlots asserts dest) = c.fragSize dest := by
  unfold fragSlots appendFrag fragSize
  cases c .sharpFrag with
  | some k => simp
  | none =>
    cases c .frag with
    | none => simp
    | some k =>
      dsimp only
      split_ifs <;> simp

theorem queryFrag_slots : written (c.queryFragSlots asserts dest) =
      (match c .qmQueryFrag with
        | some k => k.write asserts dest
        | none => c.appendQuery asserts dest ++ c.appendFrag asserts dest) ∧
    reserved (c.queryFragSlots asserts dest) =
      (match c .qmQueryFrag with
        | some k => k.maxWriteSize dest
        | none => c.querySize dest + c.fragSize dest) := by
  unfold queryFragSlots
  cases c .qmQueryFrag with
  | some k => simp
  | none => simp [query_slots, frag_slots]

theorem written_slots : written (c.slots asserts dest) = c.appendTo asserts dest := by
  unfold slots appendTo
  rw [written_append, written_append, prefix_slots.1, path_slots.1]
  exact congrArg (_ ++ ·) queryFrag_slots.1

theorem reserved_slots : reserved (c.slots asserts dest) = c.maxWriteSize dest := by
  unfold slots maxWriteSize
  rw [reserved_append, reserved_append, prefix_slots.2, path_slots.2]
  exact congrArg (_ + ·) queryFrag_slots.2

/-! Where nothing exceeds its reserve. -/

def Level (l : List Slot) : Prop := ∀ x ∈ l, x.excess = 0

section Level

variable {l m : List Slot} {x : Slot}

@[simp] theorem level_nil : Level [] := by simp [Level]

@[simp] theorem level_cons : Level (x :: l) ↔ x.excess = 0 ∧ Level l := by simp [Level]

@[simp] theorem level_append : Level (l ++ m) ↔ Level l ∧ Level m := by
  simp [Level, or_imp, forall_and]

@[simp] theorem excess_delim : (delim s).excess = 0 := by simp [delim, room]

theorem level_slots_of_ne (h : t ≠ .host) (k : WriteComp t) : Level (k.slots asserts dest) := by
  refine k.slots_eq.2.2 ?_
  cases k with
  | ipaddr => exact absurd rfl h
  | _ => rfl

theorem level_compSlots (h : ∀ k, c t = some k → Level (k.slots asserts dest)) :
    Level (c.compSlots asserts dest t) := by
  unfold compSlots
  cases hk : c t with
  | none => simp
  | some k => simpa using h k hk

theorem level_schemeSlots : Level (c.schemeSlots asserts dest) := by
  unfold schemeSlots
  cases c .schemeColon with
  | some k => simp [level_slots_of_ne]
  | none =>
    cases c .scheme with
    | none => simp
    | some k =>
      dsimp only
      split_ifs <;> simp [level_slots_of_ne]

theorem level_userinfoSlots : Level (c.userinfoSlots asserts dest) := by
  unfold userinfoSlots
  cases c .userinfoAt with
  | some k => simp [level_slots_of_ne]
  | none =>
    cases c .userinfo with
    | some k =>
      dsimp only
      split_ifs <;> simp [level_slots_of_ne]
    | none =>
      cases c .user with
      | none => simp
      | some k =>
        cases c .password with
        | none =>
          dsimp only
          split_ifs <;> simp [level_slots_of_ne]
        | some p =>
          dsimp only
          split_ifs <;> simp [level_slots_of_ne]

theorem level_hostPortSlots (hhost : ∀ k ∈ c .host, k.isAddress = false) :
    Level (c.hostPortSlots asserts dest) := by
  unfold hostPortSlots
  cases c .hostPort with
  | some k => simp [level_slots_of_ne]
  | none =>
    refine level_append.2 ⟨level_compSlots fun k hk => k.slots_eq.2.2 (hhost k hk), ?_⟩
    cases c .port with
    | some k =>
      dsimp only
      split_ifs <;> simp [level_slots_of_ne]
    | none =>
      cases c .autoPort with
      | none => simp
      | some k => exact (k.covers_appendColonPortTo asserts dest c.schemeText).excess

theorem level_prefixSlots (hhost : ∀ k ∈ c .host, k.isAddress = false) :
    Level (c.prefixSlots asserts dest) := by
  unfold prefixSlots
  cases c .schemeAuthority with
  | some k => simp [level_slots_of_ne]
  | none =>
    refine level_append.2 ⟨level_schemeSlots, ?_⟩
    unfold authoritySlots
    cases c .ssAuthority with
    | some k => simp [level_slots_of_ne]
    | none =>
      cases c .authority with
      | some k => simp [level_slots_of_ne]
      | none => simp [level_userinfoSlots, level_hostPortSlots hhost]

theorem level_pathSlots (hdir : c .dirPath = none) : Level (c.pathSlots asserts dest) := by
  unfold pathSlots
  cases c .path with
  | some k => simp [level_slots_of_ne]
  | none =>
    have hname : Level (c.compSlots asserts dest .fileName) :=
      level_compSlots fun k _ => level_slots_of_ne (by decide) k
    refine level_append.2 ⟨by simp [dirPathSlots, hdir], ?_⟩
    cases c .file with
    | some k => simp [level_slots_of_ne]
    | none => cases c .fileDotExt <;> cases c .fileExt <;> simp [level_slots_of_ne, hname]

theorem level_queryFragSlots : Level (c.queryFragSlots asserts dest) := by
  unfold queryFragSlots
  cases c .qmQueryFrag with
  | some k => simp [level_slots_of_ne]
  | none =>
    refine level_append.2 ⟨?_, ?_⟩
    · unfold querySlots
      cases c .qmQuery with
      | some k => simp [level_slots_of_ne]
      | none =>
        cases c .query with
        | none => simp
        | some k =>
          dsimp only
          split_ifs <;> simp [level_slots_of_ne]
    · unfold fragSlots
      cases c .sharpFrag with
      | some k => simp [level_slots_of_ne]
      | none =>
        cases c .frag with
        | none => simp
        | some k =>
          dsimp only
          split_ifs <;> simp [level_slots_of_ne]

/-- A directory path and an address are all that can need more than is reserved for them. -/
theorem level_slots (hdir : c .dirPath = none) (hhost : ∀ k ∈ c .host, k.isAddress = false) :
    Level (c.slots asserts dest) :=
  level_append.2 ⟨level_append.2 ⟨level_prefixSlots hhost, level_pathSlots hdir⟩,
    level_queryFragSlots⟩

end Level

/-! Where a byte is stored at large. -/

/-- The authority the writer takes is one byte long and to be encoded. -/
def HoldsShortAuthority (asserts : Bool) (c : WriteComps) (dest : Codec) : Prop :=
  match c .schemeAuthority with
  | some k => k.Short asserts dest
  | none =>
    match c .ssAuthority with
    | some k => k.Short asserts dest
    | none => False

theorem tame_doWrite (h : t ≠ .ssAuthority) (h' : t ≠ .schemeAuthority) :
    (c.doWrite asserts dest t).Tame := by
  unfold doWrite
  cases c t with
  | none => exact Out.tame_ok
  | some k => exact tame_write_of_ne h h' k

theorem tame_appendUserinfo : (c.appendUserinfo asserts dest).Tame := by
  unfold appendUserinfo
  cases c .userinfoAt with
  | some k => exact tame_write_of_ne (by decide) (by decide) k
  | none =>
    cases c .userinfo with
    | some k =>
      have hk : (k.write asserts dest).Tame := tame_write_of_ne (by decide) (by decide) k
      dsimp only
      split_ifs
      · exact hk.append Out.tame_ok
      · exact Out.tame_ok
    | none =>
      cases c .user with
      | none => exact Out.tame_ok
      | some k =>
        have hk : (k.write asserts dest).Tame := tame_write_of_ne (by decide) (by decide) k
        dsimp only
        split_ifs
        · refine (hk.append ?_).append Out.tame_ok
          cases c .password with
          | none => exact Out.tame_ok
          | some p =>
            dsimp only
            split_ifs
            · exact Out.tame_ok.append (tame_write_of_ne (by decide) (by decide) p)
            · exact Out.tame_ok
        · exact Out.tame_ok

theorem tame_appendHostPort (ho : o.Tame) : (c.appendHostPort asserts dest o).Tame := by
  unfold appendHostPort
  cases c .hostPort with
  | some k => exact ho.append (tame_write_of_ne (by decide) (by decide) k)
  | none =>
    have hhost : (o ++ c.doWrite asserts dest .host).Tame :=
      ho.append (tame_doWrite (by decide) (by decide))
    cases c .port with
    | some k =>
      dsimp only
      split_ifs
      · exact (hhost.append Out.tame_ok).append (tame_write_of_ne (by decide) (by decide) k)
      · exact hhost
    | none =>
      cases c .autoPort with
      | some k => exact hhost.append (tame_appendColonPortTo k _)
      | none => exact hhost

theorem tame_appendAuthority (ho : o.stop = none) : (c.appendAuthority asserts dest o).Tame ↔
    ¬match c .ssAuthority with
      | some k => k.Short asserts dest
      | none => False := by
  have htame : o.Tame := by simp [Out.Tame, ho]
  unfold appendAuthority
  cases c .ssAuthority with
  | some k => exact (Out.tame_append_iff ho).trans (tame_write k)
  | none =>
    refine iff_of_true ?_ id
    cases c .authority with
    | some k =>
      exact (htame.append Out.tame_ok).append (tame_write_of_ne (by decide) (by decide) k)
    | none => exact tame_appendHostPort ((htame.append Out.tame_ok).append tame_appendUserinfo)

theorem tame_appendPath : (c.appendPath asserts dest).Tame := by
  have hcomp : ∀ {t} (k : WriteComp t), t ≠ .ssAuthority → t ≠ .schemeAuthority →
      (k.write asserts dest).Tame := fun k h h' => tame_write_of_ne h h' k
  unfold appendPath
  cases c .path with
  | some k => exact hcomp k (by decide) (by decide)
  | none =>
    refine Out.Tame.append ?_ ?_
    · unfold appendDirPath
      cases c .dirPath with
      | some k => exact (hcomp k (by decide) (by decide)).append Out.tame_ok
      | none => exact Out.tame_ok
    · cases c .file with
      | some k => exact hcomp k (by decide) (by decide)
      | none =>
        refine (tame_doWrite (by decide) (by decide)).append ?_
        cases c .fileDotExt with
        | some k => exact hcomp k (by decide) (by decide)
        | none =>
          cases c .fileExt with
          | some k => exact Out.tame_ok.append (hcomp k (by decide) (by decide))
          | none => exact Out.tame_ok

theorem tame_appendQuery : (c.appendQuery asserts dest).Tame := by
  unfold appendQuery
  cases c .qmQuery with
  | some k => exact tame_write_of_ne (by decide) (by decide) k
  | none =>
    cases c .query with
    | none => exact Out.tame_ok
    | some k =>
      dsimp only
      split_ifs
      · exact Out.tame_ok.append (tame_write_of_ne (by decide) (by decide) k)
      · exact Out.tame_ok

theorem tame_appendFrag : (c.appendFrag asserts dest).Tame := by
  unfold appendFrag
  cases c .sharpFrag with
  | some k => exact tame_write_of_ne (by decide) (by decide) k
  | none =>
    cases c .frag with
    | none => exact Out.tame_ok
    | some k =>
      dsimp only
      split_ifs
      · exact Out.tame_ok.append (tame_write_of_ne (by decide) (by decide) k)
      · exact Out.tame_ok

theorem tame_appendTo :
    (c.appendTo asserts dest).Tame ↔ ¬c.HoldsShortAuthority asserts dest := by
  unfold appendTo HoldsShortAuthority
  have htail : (match c .qmQueryFrag with
      | some k => k.write asserts dest
      | none => c.appendQuery asserts dest ++ c.appendFrag asserts dest).Tame := by
    cases c .qmQueryFrag with
    | some k => exact tame_write_of_ne (by decide) (by decide) k
    | none => exact tame_appendQuery.append tame_appendFrag
  refine (Out.tame_append_left htail).trans ((Out.tame_append_left tame_appendPath).trans ?_)
  cases c .schemeAuthority with
  | some k => exact tame_write k
  | none =>
    refine tame_appendAuthority ?_
    rw [appendScheme_eq, Out.stop_ok]

/-! The buffer. -/

/-- `assign_to` stores only inside the buffer it resized, and then only shrinks it. -/
structure StaysInside (asserts : Bool) (c : WriteComps) (dest : Codec) : Prop where
  tame : (c.appendTo asserts dest).Tame
  peak_le : (c.appendTo asserts dest).peak ≤ c.maxWriteSize dest
  shrinks : ∀ s, c.assignTo asserts dest = .ok s → s.length ≤ c.maxWriteSize dest

/-- What the contents need that no reserve counts: the `'/'` after a directory path, and the bytes
of an address past its 45. -/
def unreserved (asserts : Bool) (c : WriteComps) (dest : Codec) : ℕ :=
  excesses (c.slots asserts dest)

/-- What the contents leave of the reserves: two bytes for each byte that encoding leaves as it is and
for each escape that is decoded, the digits a number does not have, the bytes an address is shorter,
all that is reserved behind an error, and the `'&'` that is taken back. -/
def unused (asserts : Bool) (c : WriteComps) (dest : Codec) : ℕ := spares (c.slots asserts dest)

theorem peak_appendTo_le_iff : (c.appendTo asserts dest).peak ≤ c.maxWriteSize dest ↔
    c.unreserved asserts dest ≤ c.unused asserts dest := by
  rw [← written_slots, ← reserved_slots]
  exact peak_le_iff _

theorem staysInside_iff (asserts : Bool) (c : WriteComps) (dest : Codec) :
    c.StaysInside asserts dest ↔
      ¬c.HoldsShortAuthority asserts dest ∧ c.unreserved asserts dest ≤ c.unused asserts dest := by
  refine ⟨fun h => ⟨tame_appendTo.1 h.tame, peak_appendTo_le_iff.1 h.peak_le⟩, fun h => ?_⟩
  have hle := peak_appendTo_le_iff.2 h.2
  refine ⟨tame_appendTo.2 h.1, hle, fun s hs => ?_⟩
  have htext := (c.appendTo asserts dest).le_peak
  simp only [assignTo] at hs
  split at hs
  · rw [← Except.ok.inj hs, List.length_append, List.length_take, List.length_replicate]
    omega
  · cases hs

/-- A directory path that is empty gets a `'/'`, after the `"//"` that has used up the size. -/
theorem not_staysInside : ¬StaysInside true
    (WriteComps.ofTexts .urlDecoded fun t => if t = .dirPath then some [] else none)
    .urlEncoded := by
  intro h
  have := h.peak_le
  revert this
  decide +kernel

/-- The buffer of a writer without a directory path or an address holds what was appended. -/
theorem assignTo_eq (hdir : c .dirPath = none) (hhost : ∀ k ∈ c .host, k.isAddress = false) :
    c.assignTo asserts dest =
      match (c.appendTo asserts dest).stop with
      | none => .ok (c.appendTo asserts dest).text
      | some e => .error e := by
  have hpeak : (c.appendTo asserts dest).peak ≤ c.maxWriteSize dest := by
    rw [← written_slots, ← reserved_slots]
    exact peak_written_le (level_slots hdir hhost)
  have hlen := (c.appendTo asserts dest).le_peak.trans hpeak
  simp only [assignTo]
  cases (c.appendTo asserts dest).stop with
  | none =>
    dsimp only
    rw [List.take_of_length_le hlen, Nat.sub_eq_zero_of_le hlen, List.replicate_zero,
      List.append_nil]
  | some e => rfl

end WriteComps

end Jkl.Uri
