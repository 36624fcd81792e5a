import Mathlib.Data.List.Basic
import Mathlib.Data.Fintype.Basic
import Mathlib.Tactic.Common

/-! Bytes, component tags, codecs, and what an appending call leaves behind. -/
namespace Jkl.Uri

/-- A C++ `char` seen as `unsigned char`. -/
abbrev Byte := UInt8

abbrev Bytes := List Byte

/-- A character literal of the source. -/
instance : Coe Char Byte := ⟨Char.toUInt8⟩

/-- A string literal of the source. -/
def lit (s : String) : Bytes := s.toList.map Char.toUInt8

theorem forall_byte {p : Byte → Prop} (h : ∀ n : Fin 256, p (UInt8.ofFin n)) (c : Byte) : p c :=
  h c.toFin

@[simp] theorem toUInt8_eq_iff {a b : Char} :
    a.toUInt8 = b.toUInt8 ↔ a.toNat % 256 = b.toNat % 256 := by
  have h : ∀ c : Char, c.toUInt8.toNat = c.toNat % 256 := fun c => UInt32.toNat_toUInt8 c.val
  rw [← UInt8.toNat_inj, h, h]

/-- The tags of the components a reader or writer holds; `uri_uri_tag` marks a whole text. -/
inductive Tag where
  | scheme
  | user
  | password
  | host
  | port
  | autoPort
  | path
  | query
  | frag
  | schemeColon
  | userinfo
  | userinfoAt
  | hostPort
  | authority
  | ssAuthority
  | schemeAuthority
  | qmQuery
  | sharpFrag
  | qmQueryFrag
  | dirPath
  | file
  | fileName
  | fileExt
  | fileDotExt
deriving DecidableEq, Repr

/-- `uri_codec_e`. -/
inductive Codec where
  | asIs
  | urlEncoded
  | urlDecoded
deriving DecidableEq, Repr

inductive UriErr where
  | invalidHex
  | noSchemeBeforeColon
  | unterminatedIpv6
  | invalidPort
deriving DecidableEq, Repr

/-- Why a call stopped before its end: it returned an error, a `BOOST_ASSERT` of a build that
has them failed, or it took a prefix off a view that is shorter. The last is undefined, and
nothing bounds what is stored after it. -/
inductive Stop where
  | err (e : UriErr)
  | assertion
  | wild
deriving DecidableEq, Repr

/-- What a call that appends at `d` leaves behind: the bytes between `d` and where it got to,
and how far from `d` it has stored bytes. The two differ where a byte is taken back. -/
@[ext] structure Out where
  text : Bytes
  peak : ℕ
  stop : Option Stop
  le_peak : text.length ≤ peak
deriving DecidableEq

namespace Out

def ok (s : Bytes) : Out := ⟨s, s.length, none, le_rfl⟩

def halt (e : Stop) : Out := ⟨[], 0, some e, le_rfl⟩

/-- The second call appends where the first got to, unless the first stopped. -/
def andThen (o p : Out) : Out :=
  match o.stop with
  | some _ => o
  | none =>
    ⟨o.text ++ p.text, max o.peak (o.text.length + p.peak), p.stop, by
      have := p.le_peak
      simp only [List.length_append]
      omega⟩

instance : Append Out := ⟨andThen⟩

/-- `--d`, unless the call stopped. -/
def back (o : Out) : Out :=
  match o.stop with
  | some _ => o
  | none =>
    ⟨o.text.dropLast, o.peak, none, by
      have := o.le_peak
      simp only [List.length_dropLast]
      omega⟩

variable {o p q : Out} {s t : Bytes} {e : Stop}

@[simp] theorem text_ok : (ok s).text = s := rfl
@[simp] theorem peak_ok : (ok s).peak = s.length := rfl
@[simp] theorem stop_ok : (ok s).stop = none := rfl
@[simp] theorem text_halt : (halt e).text = [] := rfl
@[simp] theorem peak_halt : (halt e).peak = 0 := rfl
@[simp] theorem stop_halt : (halt e).stop = some e := rfl

@[simp] theorem ok_inj : ok s = ok t ↔ s = t :=
  ⟨fun h => congrArg Out.text h, fun h => congrArg ok h⟩

@[simp] theorem ok_ne_halt : ok s ≠ halt e := fun h => by
  have := congrArg Out.stop h
  simp at this

theorem append_of_stop (h : o.stop = some e) : o ++ p = o := by
  change andThen o p = o
  simp [andThen, h]

theorem append_of_none (h : o.stop = none) :
    (o ++ p).text = o.text ++ p.text ∧ (o ++ p).peak = max o.peak (o.text.length + p.peak) ∧
      (o ++ p).stop = p.stop := by
  change (andThen o p).text = _ ∧ (andThen o p).peak = _ ∧ (andThen o p).stop = _
  simp [andThen, h]

theorem peak_append_le : (o ++ p).peak ≤ o.peak + p.peak := by
  cases h : o.stop with
  | some e =>
    rw [append_of_stop h]
    omega
  | none =>
    have := o.le_peak
    rw [(append_of_none h).2.1]
    omega

@[simp] theorem halt_append : halt e ++ p = halt e := append_of_stop rfl

@[simp] theorem ok_append_ok : ok s ++ ok t = ok (s ++ t) := by
  obtain ⟨ht, hp, hs⟩ := append_of_none (o := ok s) (p := ok t) rfl
  ext1
  · simpa using ht
  · simp [hp]
  · simpa using hs

@[simp] theorem ok_nil_append : ok [] ++ p = p := by
  obtain ⟨ht, hp, hs⟩ := append_of_none (o := ok []) (p := p) rfl
  ext1
  · simpa using ht
  · simp [hp]
  · simpa using hs

@[simp] theorem append_ok_nil : o ++ ok [] = o := by
  cases h : o.stop with
  | some e => exact append_of_stop h
  | none =>
    obtain ⟨ht, hp, hs⟩ := append_of_none (p := ok []) h
    have := o.le_peak
    ext1
    · simpa using ht
    · simp only [hp, peak_ok, List.length_nil]
      omega
    · simpa [h] using hs

theorem append_assoc : o ++ p ++ q = o ++ (p ++ q) := by
  cases h : o.stop with
  | some e => rw [append_of_stop h, append_of_stop h, append_of_stop h]
  | none =>
    obtain ⟨ht, hp, hs⟩ := append_of_none (p := p) h
    obtain ⟨ht', hp', hs'⟩ := append_of_none (p := p ++ q) h
    cases h' : p.stop with
    | some e => rw [append_of_stop (o := o ++ p) (hs.trans h'), append_of_stop h']
    | none =>
      obtain ⟨kt, kp, ks⟩ := append_of_none (o := o ++ p) (p := q) (hs.trans h')
      obtain ⟨kt', kp', ks'⟩ := append_of_none (p := q) h'
      ext1
      · rw [kt, ht, ht', kt', List.append_assoc]
      · rw [kp, hp, hp', kp', ht, List.length_append]
        omega
      · rw [ks, hs', ks']

instance : Std.Associative (α := Out) (· ++ ·) := ⟨fun _ _ _ => append_assoc⟩

/-- The call took no byte back. -/
def Exact (o : Out) : Prop := o.peak = o.text.length

@[simp] theorem exact_ok : (ok s).Exact := rfl

@[simp] theorem exact_halt : (halt e).Exact := rfl

theorem Exact.append (ho : o.Exact) (hp : p.Exact) : (o ++ p).Exact := by
  unfold Exact at *
  cases h : o.stop with
  | some e => rwa [append_of_stop h]
  | none =>
    obtain ⟨ht, hk, -⟩ := append_of_none (p := p) h
    rw [ht, hk, ho, hp, List.length_append]
    omega

theorem Exact.eq_ok (ho : o.Exact) (h : o.stop = none) : o = ok o.text := by
  ext1
  · rfl
  · exact ho
  · exact h

/-- The call succeeded and left the text. -/
def Yields (o : Out) (s : Bytes) : Prop := o.stop = none ∧ o.text = s

theorem yields_ok : (ok s).Yields s := ⟨rfl, rfl⟩

theorem Yields.append (ho : o.Yields s) (hp : p.Yields t) : (o ++ p).Yields (s ++ t) := by
  obtain ⟨ht, -, hs⟩ := append_of_none (p := p) ho.1
  exact ⟨hs.trans hp.1, by rw [ht, ho.2, hp.2]⟩

theorem append_eq_ok (ho : o.Exact) (hp : p.Exact) (h : o ++ p = ok s) :
    ∃ a b, o = ok a ∧ p = ok b ∧ a ++ b = s := by
  cases hs : o.stop with
  | some e =>
    rw [append_of_stop hs] at h
    simp [h] at hs
  | none =>
    obtain ⟨ht, -, hq⟩ := append_of_none (p := p) hs
    rw [h] at ht hq
    exact ⟨_, _, ho.eq_ok hs, hp.eq_ok hq.symm, ht.symm⟩

end Out

end Jkl.Uri
