import Jkl.Pb.Packed

/-! Copying the elements of a packed field, against writing and reading them one by one. Objects
are bit patterns here, so that the elements may be floating point numbers. -/
namespace Jkl.Pb
open LittleEndian (words)

/-- The value of an object of this type. -/
def CInt.ofBits (c : CInt) (w : ℕ) : ℤ := if c = .bool then w else c.cast w

def CInt.toBits (c : CInt) (x : ℤ) : ℕ := (x % 2 ^ c.bits).toNat

namespace CInt

theorem toBits_bool (x : ℤ) : CInt.bool.toBits (CInt.bool.cast x) = if x = 0 then 0 else 1 := by
  have hcast : CInt.bool.cast x = if x = 0 then 0 else 1 := rfl
  rw [hcast]
  split_ifs <;> rfl

theorem ofBits_eq_zero {c : CInt} {w : ℕ} (hw : w < 2 ^ c.bits) : c.ofBits w = 0 ↔ w = 0 := by
  cases c <;> simp [bits] at hw <;> simp [ofBits, cast, signed, bits] <;> omega

theorem toBits_of_le_one (c : CInt) {w : ℕ} (hw : w ≤ 1) : c.toBits (c.cast w) = w := by
  obtain rfl | rfl : w = 0 ∨ w = 1 := by omega
  · cases c <;> rfl
  · cases c <;> rfl

theorem toBits_lt (c : CInt) (x : ℤ) : c.toBits x < 256 ^ (c.bits / 8) := by
  cases c <;> simp [toBits, bits] <;> omega

/-- A conversion between integral types of one size keeps the bits. -/
theorem toBits_cast {c d : CInt} (hc : c ≠ .bool) (hd : d ≠ .bool) (hbits : c.bits = d.bits) {w : ℕ}
    (hw : w < 2 ^ d.bits) : d.toBits (d.cast (c.ofBits w)) = w := by
  cases c <;> cases d <;> simp [bits] at hbits hc hd hw <;>
    simp [toBits, ofBits, cast, signed, bits] <;> omega

end CInt

/-- The arithmetic C++ types. -/
inductive Arith where
  | int (c : CInt)
  | float
  | double
deriving DecidableEq, Repr

namespace Arith

/-- `sizeof(T)`. -/
def size : Arith → ℕ
  | int c => c.bits / 8
  | float => 4
  | double => 8

/-- What may lie in an object; a `bool` is 0 or 1. -/
def IsObject : Arith → ℕ → Prop
  | int .bool, w => w ≤ 1
  | a, w => w < 256 ^ a.size

theorem IsObject.lt {a : Arith} {w : ℕ} (h : a.IsObject w) : w < 256 ^ a.size := by
  cases a with
  | int c =>
    cases c with
    | bool => exact lt_of_le_of_lt (show w ≤ 1 from h) (by decide)
    | _ => exact h
  | _ => exact h

end Arith

/-- The conversions between a floating point type and another type. -/
structure FloatCast where
  toBits : Arith → Arith → ℕ → ℕ
  lt (a b : Arith) (w : ℕ) : toBits a b w < 256 ^ b.size

namespace FloatCast

variable (F : FloatCast)

/-- `static_cast`. -/
def cast : Arith → Arith → ℕ → ℕ
  | .int c, .int d, w => d.toBits (d.cast (c.ofBits w))
  | .float, .float, w | .double, .double, w => w
  | a, b, w => F.toBits a b w

/-- A conversion between types of one size that leaves the object as it is. -/
def Keeps : Arith → Arith → ℕ → Prop
  | .int .bool, .int _, w | .int _, .int .bool, w => w ≤ 1
  | .int _, .int _, _ | .float, .float, _ | .double, .double, _ => True
  | a, b, w => F.toBits a b w = w

theorem cast_int_iff {c d : CInt} (hbits : c.bits = d.bits) {w : ℕ}
    (hw : (Arith.int c).IsObject w) :
    d.toBits (d.cast (c.ofBits w)) = w ↔ F.Keeps (.int c) (.int d) w := by
  by_cases hc : c = .bool
  · subst hc
    have hle : w ≤ 1 := hw
    have hkeeps : F.Keeps (.int .bool) (.int d) w := hle
    exact iff_of_true (CInt.toBits_of_le_one d hle) hkeeps
  · have hw : w < 2 ^ c.bits := by
      cases c <;> first | exact absurd rfl hc | exact hw
    by_cases hd : d = .bool
    · subst hd
      have hkeeps : F.Keeps (.int c) (.int .bool) w ↔ w ≤ 1 := by
        cases c <;> exact Iff.rfl
      have hzero := CInt.ofBits_eq_zero hw
      rw [CInt.toBits_bool, hkeeps]
      split_ifs <;> omega
    · have hkeeps : F.Keeps (.int c) (.int d) w := by
        cases c <;> cases d <;> first | exact absurd rfl hc | exact absurd rfl hd | trivial
      exact iff_of_true (CInt.toBits_cast hc hd hbits (hbits ▸ hw)) hkeeps

/-- Between types of one size, a conversion is a copy exactly where `Keeps` says so. -/
theorem cast_eq_iff {a b : Arith} (hsize : a.size = b.size) {w : ℕ} (hw : a.IsObject w) :
    F.cast a b w = w ↔ F.Keeps a b w := by
  cases a with
  | int c =>
    cases b with
    | int d =>
      have hbits : c.bits = d.bits := by
        cases c <;> cases d <;> first | rfl | cases hsize
      exact F.cast_int_iff hbits hw
    | float | double => cases c <;> exact Iff.rfl
  | float =>
    cases b with
    | int d => cases d <;> exact Iff.rfl
    | float => exact iff_of_true rfl trivial
    | double => exact Iff.rfl
  | double =>
    cases b with
    | int d => cases d <;> exact Iff.rfl
    | float => exact Iff.rfl
    | double => exact iff_of_true rfl trivial

theorem cast_lt (a b : Arith) {w : ℕ} (hsize : a.size = b.size) (hw : w < 256 ^ a.size) :
    F.cast a b w < 256 ^ b.size := by
  cases a with
  | int c =>
    cases b with
    | int d => exact d.toBits_lt _
    | float | double => exact F.lt _ _ w
  | float =>
    cases b with
    | int | double => exact F.lt _ _ w
    | float => exact hw
  | double =>
    cases b with
    | int | float => exact F.lt _ _ w
    | double => exact hw

end FloatCast

/-- The types of the fields that are packed when they are repeated. -/
inductive PackedTy where
  | varint (ty : VarintTy)
  | fixed (ty : FixedTy)
  | float
  | double
deriving DecidableEq, Repr

namespace PackedTy

/-- `Tar`. -/
def tar : PackedTy → Arith
  | varint ty => .int ty.tar
  | fixed ty => .int ty.tar
  | float => .float
  | double => .double

def wireType : PackedTy → WireType
  | varint _ => .varint
  | fixed ty => ty.wireType
  | float => .fix32
  | double => .fix64

/-- `is_static_len`. -/
def isStaticLen : PackedTy → Bool
  | varint ty => ty.tar = .bool
  | _ => true

/-- `same_as_wire_layout` of a buffer of `a`. -/
def sameAsWireLayout (t : PackedTy) (a : Arith) : Bool :=
  a.size = 4 && t.wireType = .fix32 || a.size = 8 && t.wireType = .fix64 ||
    a.size = 1 && t = .varint .bool

section Code

variable (F : FloatCast) (t : PackedTy) (a : Arith)

/-- `write_impl` of an element. -/
def elementWrite (w : ℕ) : List UInt8 :=
  match t with
  | varint ty => appendVarint ty.zigzag ty.tar (ty.tar.ofBits (F.cast a (.int ty.tar) w))
  | t => LittleEndian.store t.tar.size (F.cast a t.tar w)

/-- `read_impl` of an element. -/
def elementRead (mem : List UInt8) (lim : ℕ) : Scan ℕ :=
  match t with
  | varint ty =>
    match readVarint ty.zigzag ty.tar mem lim with
    | .ok n x => .ok n (F.cast (.int ty.tar) a (ty.tar.toBits x))
    | .err e => .err e
    | .stop s => .stop s
  | t =>
    if t.tar.size ≤ lim then
      match load t.tar.size mem with
      | none => .stop .fault
      | some bs => .ok t.tar.size (F.cast t.tar a (LittleEndian.load bs))
    else .err .fixedIncomplete

/-- `for(auto& e : u)` over as many elements. -/
def elementsRead : (cnt : ℕ) → (mem : List UInt8) → (lim : ℕ) → Scan (List ℕ)
  | 0, _, _ => .ok 0 []
  | cnt + 1, mem, lim =>
    match t.elementRead F a mem lim with
    | .ok n w =>
      match elementsRead cnt (mem.drop n) (lim - n) with
      | .ok k ws => .ok (n + k) (w :: ws)
      | .err e => .err e
      | .stop s => .stop s
    | .err e => .err e
    | .stop s => .stop s

/-- The payload of a packed field whose elements all have one length, by `memcpy` from the objects
or by `write_impl` of each. -/
def payloadWrite (copy : Bool) (ws : List ℕ) : List UInt8 :=
  if copy then (ws.flatMap (LittleEndian.store a.size)).take (sizeT (ws.length * t.tar.size))
  else ws.flatMap (t.elementWrite F a)

/-- The rest of `read_impl` behind the length `len` of such a field, by `memcpy` or by `read_impl`
of each element, into a sequence. `room` is the size of one that cannot be resized. -/
def payloadRead (copy : Bool) (room : Option ℕ) (mem : List UInt8) (len : ℕ) : Scan (List ℕ) :=
  if len % t.tar.size ≠ 0 then .err .invalidLength
  else if room.any (· ≠ len / t.tar.size) then .err .invalidLength
  else if copy then
    match load len mem with
    | none => .stop .fault
    | some bs => .ok len (words a.size (len / t.tar.size) bs)
  else t.elementsRead F a (len / t.tar.size) mem len

end Code

theorem size_tar_of_fix32 {t : PackedTy} (h : t.wireType = .fix32) : t.tar.size = 4 := by
  cases t with
  | varint | double => cases h
  | fixed ty => cases ty <;> first | rfl | cases h
  | float => rfl

theorem size_tar_of_fix64 {t : PackedTy} (h : t.wireType = .fix64) : t.tar.size = 8 := by
  cases t with
  | varint | float => cases h
  | fixed ty => cases ty <;> first | rfl | cases h
  | double => rfl

variable {F : FloatCast} {t : PackedTy} {a : Arith}

theorem sameAsWireLayout_iff : t.sameAsWireLayout a = true ↔
    a.size = 4 ∧ t.wireType = .fix32 ∨ a.size = 8 ∧ t.wireType = .fix64 ∨
      a.size = 1 ∧ t = .varint .bool := by
  simp only [sameAsWireLayout, Bool.or_eq_true, Bool.and_eq_true, decide_eq_true_eq, or_assoc]

theorem size_eq (h : t.sameAsWireLayout a = true) : a.size = t.tar.size := by
  rcases sameAsWireLayout_iff.mp h with ⟨hs, ht⟩ | ⟨hs, ht⟩ | ⟨hs, rfl⟩
  · rw [hs, size_tar_of_fix32 ht]
  · rw [hs, size_tar_of_fix64 ht]
  · exact hs

/-- The only varints that are copied are bools. -/
theorem eq_bool_of_varint {ty : VarintTy} (h : (varint ty).sameAsWireLayout a = true) :
    ty = .bool := by
  rcases sameAsWireLayout_iff.mp h with ⟨-, ht⟩ | ⟨-, ht⟩ | ⟨-, ht⟩
  · cases ht
  · cases ht
  · injection ht

theorem isStaticLen_of_sameAsWireLayout (h : t.sameAsWireLayout a = true) :
    t.isStaticLen = true := by
  cases t with
  | varint ty => rw [eq_bool_of_varint h]; rfl
  | fixed | float | double => rfl

theorem elementWrite_eq (h : t.sameAsWireLayout a = true) (w : ℕ) :
    t.elementWrite F a w = LittleEndian.store a.size (F.cast a t.tar w) := by
  have hsize := size_eq h
  cases t with
  | varint ty =>
    obtain rfl := eq_bool_of_varint h
    rw [hsize]
    rfl
  | fixed | float | double =>
    rw [hsize]
    rfl

theorem map_eq_self {f : ℕ → ℕ} {ws : List ℕ} : ws.map f = ws ↔ ∀ w ∈ ws, f w = w := by
  have h := List.map_eq_map_iff (f := f) (g := id) (l := ws)
  rwa [List.map_id] at h

/-- What `memcpy` writes is what the elements are written as exactly if none of the bytes is cut off
and each object is the one it is converted to. -/
theorem payloadWrite_iff (h : t.sameAsWireLayout a = true) {ws : List ℕ}
    (hws : ∀ w ∈ ws, a.IsObject w) :
    t.payloadWrite F a true ws = t.payloadWrite F a false ws ↔
      ws.length * a.size < 2 ^ 32 ∧ ∀ w ∈ ws, F.Keeps a t.tar w := by
  have hsize := size_eq h
  have hslow : t.payloadWrite F a false ws =
      (ws.map (F.cast a t.tar)).flatMap (LittleEndian.store a.size) := by
    simp only [payloadWrite, Bool.false_eq_true, if_false, List.flatMap_map]
    exact congrArg (ws.flatMap ·) (funext (elementWrite_eq h))
  have hfast : t.payloadWrite F a true ws =
      (ws.flatMap (LittleEndian.store a.size)).take (sizeT (ws.length * a.size)) := by
    simp only [payloadWrite, if_true, hsize]
  have hlt : ∀ w ∈ ws, w < 256 ^ a.size := fun w hw => (hws w hw).lt
  have hcast : ∀ v ∈ ws.map (F.cast a t.tar), v < 256 ^ a.size := by
    intro v hv
    obtain ⟨w, hw, rfl⟩ := List.mem_map.mp hv
    rw [hsize]
    exact F.cast_lt _ _ hsize (hlt w hw)
  have hkeeps : ws = ws.map (F.cast a t.tar) ↔ ∀ w ∈ ws, F.Keeps a t.tar w := by
    rw [eq_comm, map_eq_self]
    exact forall₂_congr fun w hw => F.cast_eq_iff hsize (hws w hw)
  have hinj := LittleEndian.flatMap_store_inj hlt hcast (List.length_map _).symm
  have hlen := LittleEndian.length_flatMap_store a.size ws
  have hlen' := LittleEndian.length_flatMap_store a.size (ws.map (F.cast a t.tar))
  rw [hslow, hfast, ← hkeeps, ← hinj]
  constructor
  · intro h
    have hshort : ws.length * a.size < 2 ^ 32 := by
      by_contra hlong
      have hcut := congrArg List.length h
      rw [List.length_take, hlen, hlen', List.length_map] at hcut
      have hmod := Nat.mod_lt (ws.length * a.size) (show 2 ^ 32 > 0 by decide)
      unfold sizeT at hcut
      omega
    rw [sizeT_of_lt hshort, ← hlen, List.take_length] at h
    exact ⟨hshort, h⟩
  · rintro ⟨hshort, h⟩
    rw [sizeT_of_lt hshort, ← hlen, List.take_length, h]

/-- What `read_impl` stores for an element with the bits `w`. -/
def stored (F : FloatCast) (t : PackedTy) (a : Arith) (w : ℕ) : ℕ :=
  F.cast t.tar a (if t = .varint .bool then min w 1 else w)

theorem elementRead_eq (h : t.isStaticLen = true) {p : List UInt8}
    (hp : p.length = t.tar.size) (x : List UInt8) {lim : ℕ} (hlim : p.length ≤ lim) :
    t.elementRead F a (p ++ x) lim = .ok p.length (stored F t a (LittleEndian.load p)) := by
  cases t with
  | varint ty =>
    obtain rfl : ty = .bool := by
      cases ty <;> first | rfl | cases h
    obtain ⟨b, rfl⟩ := List.length_eq_one_iff.mp hp
    have hlim : 0 < lim := hlim
    have hb : CInt.bool.toBits (CInt.bool.cast b.toNat) = min b.toNat 1 := by
      rw [CInt.toBits_bool]
      split_ifs <;> omega
    have hread : readVarint false .bool ([b] ++ x) lim = .ok 1 (CInt.bool.cast b.toNat) := by
      simp [readVarint, hlim]
    have hload : LittleEndian.load [b] = b.toNat := by simp [LittleEndian.load]
    unfold elementRead stored
    simp only [VarintTy.zigzag, VarintTy.tar, hread, hb, hload, if_true]
    rfl
  | fixed | float | double =>
    have hload : load p.length (p ++ x) = some p := by
      rw [load, if_pos (by simp), List.take_left]
    unfold elementRead stored
    simp only [← hp, hload, if_pos hlim]
    rfl

theorem size_pos (t : PackedTy) : 0 < t.tar.size := by
  cases t with
  | varint ty | fixed ty => cases ty <;> decide
  | float | double => decide

theorem elementsRead_eq (h : t.isStaticLen = true) {cnt : ℕ} {bs : List UInt8}
    (hbs : bs.length = cnt * t.tar.size) (x : List UInt8) :
    t.elementsRead F a cnt (bs ++ x) bs.length =
      .ok bs.length ((words t.tar.size cnt bs).map (stored F t a)) := by
  induction cnt generalizing bs with
  | zero =>
    have hnil : bs = [] := List.eq_nil_of_length_eq_zero (by simpa using hbs)
    rw [hnil]
    rfl
  | succ cnt ih =>
    obtain ⟨p, rest, rfl, hp⟩ : ∃ p rest, bs = p ++ rest ∧ p.length = t.tar.size := by
      refine ⟨bs.take t.tar.size, bs.drop t.tar.size, (List.take_append_drop _ _).symm, ?_⟩
      rw [List.length_take, hbs, Nat.succ_mul]
      exact Nat.min_eq_left (Nat.le_add_left _ _)
    have hlen : (p ++ rest).length = p.length + rest.length := List.length_append
    have hrest : rest.length = cnt * t.tar.size := by
      rw [hlen, Nat.succ_mul] at hbs
      omega
    have hone := elementRead_eq (F := F) (a := a) h hp (rest ++ x)
      (Nat.le_add_right p.length rest.length)
    rw [elementsRead, List.append_assoc, hlen, hone]
    simp only [List.drop_left, Nat.add_sub_cancel_left, ih hrest, words, ← hp, List.take_left,
      List.map_cons]

/-- A copy of an object is what it is converted to. -/
theorem stored_eq_iff (h : t.sameAsWireLayout a = true) {w : ℕ} (hw : w < 256 ^ a.size) :
    stored F t a w = w ↔ F.Keeps t.tar a w := by
  have hsize := (size_eq h).symm
  unfold stored
  split_ifs with hbool
  · subst hbool
    have hmin : (Arith.int .bool).IsObject (min w 1) := Nat.min_le_right w 1
    have hkeeps : ∀ v, F.Keeps (.int .bool) a v ↔ v ≤ 1 := by
      intro v
      cases a with
      | int c => exact Iff.rfl
      | float | double => cases hsize
    have hone := (F.cast_eq_iff hsize hmin).mpr ((hkeeps _).mpr (Nat.min_le_right w 1))
    change F.cast (.int .bool) a (min w 1) = min w 1 at hone
    change F.cast (.int .bool) a (min w 1) = w ↔ F.Keeps (.int .bool) a w
    rw [hone, hkeeps]
    omega
  · have hobj : t.tar.IsObject w := by
      rw [← hsize] at hw
      cases t with
      | varint ty => exact absurd (congrArg varint (eq_bool_of_varint h)) hbool
      | fixed ty => cases ty <;> exact hw
      | float | double => exact hw
    exact F.cast_eq_iff hsize hobj

/-- The payloads that are not refused for their length. -/
def Accepts (t : PackedTy) (room : Option ℕ) (len : ℕ) : Prop :=
  len % t.tar.size = 0 ∧ ∀ n ∈ room, n = len / t.tar.size

theorem payloadRead_refused {room : Option ℕ} {len : ℕ} (h : ¬ t.Accepts room len) (copy : Bool)
    (mem : List UInt8) : t.payloadRead F a copy room mem len = .err .invalidLength := by
  unfold payloadRead
  by_cases hdvd : len % t.tar.size = 0
  · have hroom : room.any (· ≠ len / t.tar.size) = true := by
      cases room with
      | none => exact absurd ⟨hdvd, by simp⟩ h
      | some n =>
        have hn : n ≠ len / t.tar.size := fun hn => h ⟨hdvd, by simp [hn]⟩
        simpa using hn
    rw [if_neg (not_not_intro hdvd), if_pos hroom]
  · rw [if_pos hdvd]

section Accepted

variable {room : Option ℕ} {bs : List UInt8}

theorem payloadRead_accepted (h : t.Accepts room bs.length) (copy : Bool) (x : List UInt8) :
    t.payloadRead F a copy room (bs ++ x) bs.length =
      if copy then .ok bs.length (words a.size (bs.length / t.tar.size) bs)
      else t.elementsRead F a (bs.length / t.tar.size) (bs ++ x) bs.length := by
  have hany : ¬ room.any (· ≠ bs.length / t.tar.size) = true := by
    cases room with
    | none => simp
    | some n => simp [h.2 n rfl]
  have hload : load bs.length (bs ++ x) = some bs := by
    rw [load, if_pos (by simp), List.take_left]
  rw [payloadRead, if_neg (not_not_intro h.1), if_neg hany, hload]

theorem payloadRead_elements (hs : t.isStaticLen = true) (h : t.Accepts room bs.length)
    (x : List UInt8) :
    t.payloadRead F a false room (bs ++ x) bs.length =
      .ok bs.length ((words t.tar.size (bs.length / t.tar.size) bs).map (stored F t a)) := by
  have hlen : bs.length = bs.length / t.tar.size * t.tar.size :=
    (Nat.div_mul_cancel (Nat.dvd_of_mod_eq_zero h.1)).symm
  rw [payloadRead_accepted h, if_neg Bool.false_ne_true]
  exact elementsRead_eq hs hlen x

end Accepted

/-- What `memcpy` reads is what the elements are read as exactly if the payload is refused either
way or each object is the one it is converted to. -/
theorem payloadRead_iff (h : t.sameAsWireLayout a = true) (room : Option ℕ) (bs x : List UInt8) :
    t.payloadRead F a true room (bs ++ x) bs.length =
        t.payloadRead F a false room (bs ++ x) bs.length ↔
      (t.Accepts room bs.length →
        ∀ w ∈ words a.size (bs.length / a.size) bs, F.Keeps t.tar a w) := by
  by_cases hacc : t.Accepts room bs.length
  · have hkeeps : words a.size (bs.length / a.size) bs =
          (words a.size (bs.length / a.size) bs).map (stored F t a) ↔
        ∀ w ∈ words a.size (bs.length / a.size) bs, F.Keeps t.tar a w := by
      rw [eq_comm, map_eq_self]
      exact forall₂_congr fun w hw => stored_eq_iff h (LittleEndian.lt_of_mem_words hw)
    have hslow := payloadRead_elements (F := F) (a := a) (isStaticLen_of_sameAsWireLayout h) hacc x
    rw [hslow, payloadRead_accepted hacc, if_pos rfl, ← size_eq h, ← hkeeps]
    simp [hacc]
  · rw [payloadRead_refused hacc, payloadRead_refused hacc]
    exact iff_of_true rfl fun hd => absurd hd hacc

end PackedTy

namespace CInt

theorem ofBits_toBits {c : CInt} {x : ℤ} (h : c.InRange x) : c.ofBits (c.toBits x) = x := by
  cases c <;> simp [InRange, signed, bits] at h <;>
    simp [ofBits, toBits, cast, signed, bits] <;> omega

end CInt

namespace Fld

/-- The type of a packed element field. -/
def packedTy : Fld → Option PackedTy
  | varint _ ty _ _ => some (.varint ty)
  | fixed _ ty _ _ => some (.fixed ty)
  | _ => none

variable {elem : Fld} {t : PackedTy} {c : Container}

theorem sameAsWireLayout_eq (ht : elem.packedTy = some t) (c : Container) :
    elem.sameAsWireLayout c = (c.isBuf && t.sameAsWireLayout (.int elem.elemType)) := by
  have hvarint : ∀ (ty : VarintTy) (ct : CInt), (decide (ty.tar = .bool) && decide (ct.bits = 8)) =
      (PackedTy.varint ty).sameAsWireLayout (.int ct) := by
    intro ty ct
    cases ty <;> cases ct <;> decide
  have hfixed : ∀ (ty : FixedTy) (ct : CInt), decide (ct.bits = 8 * ty.size) =
      (PackedTy.fixed ty).sameAsWireLayout (.int ct) := by
    intro ty ct
    cases ty <;> cases ct <;> decide
  cases elem with
  | varint id ty ct p =>
    cases ht
    exact congrArg (c.isBuf && ·) (hvarint ty ct)
  | fixed id ty ct p =>
    cases ht
    exact congrArg (c.isBuf && ·) (hfixed ty ct)
  | bytes | message | repeated | oneof => cases ht

theorem objectBytes_eq (ht : elem.packedTy = some t) (vs : List Val) :
    elem.objectBytes vs = (vs.map fun v => elem.elemType.toBits v.toInt).flatMap
      (LittleEndian.store (Arith.int elem.elemType).size) := by
  rw [List.flatMap_map]
  cases elem with
  | varint | fixed => rfl
  | bytes | message | repeated | oneof => cases ht

/-- `write_impl` of a packed field, on the bits of its elements. -/
theorem writeImpl_element (F : FloatCast) (ht : elem.packedTy = some t)
    (he : elem.isElement = true) {v : Val} (hv : elem.elemType.InRange v.toInt) (lc : List ℕ) :
    elem.writeImpl true false [] v lc =
      .raw (t.elementWrite F (.int elem.elemType) (elem.elemType.toBits v.toInt)) lc := by
  have ho := isOptional_of_isElement he
  have hval : ∀ p : Params, p.isOptional = false → p.constVal v = v := by
    intro p hp
    have hopt : p.pOptional = false := by simp_all [Params.isOptional]
    simp [Params.constVal, hopt]
  cases elem with
  | varint id ty ct p =>
    cases ht
    have hv : ct.InRange v.toInt := hv
    have hin := CInt.inRange_cast ty.tar v.toInt
    have hbits : ty.tar.ofBits (F.cast (.int ct) (.int ty.tar) (ct.toBits v.toInt)) =
        ty.tar.cast v.toInt := by
      change ty.tar.ofBits (ty.tar.toBits (ty.tar.cast (ct.ofBits (ct.toBits v.toInt)))) = _
      rw [CInt.ofBits_toBits hv, CInt.ofBits_toBits hin]
    simp only [writeImpl, Bool.true_or, if_true, PackedTy.elementWrite, elemType, hbits,
      hval p ho]
    rfl
  | fixed id ty ct p =>
    cases ht
    have hv : ct.InRange v.toInt := hv
    have hbits : F.cast (.int ct) (.int ty.tar) (ct.toBits v.toInt) =
        ty.tar.toBits (ty.tar.cast v.toInt) := by
      change ty.tar.toBits (ty.tar.cast (ct.ofBits (ct.toBits v.toInt))) = _
      rw [CInt.ofBits_toBits hv]
    simp only [writeImpl, Bool.true_or, if_true, hval p ho]
    change _ = Out.raw
      (LittleEndian.store _ (F.cast (.int ct) (.int ty.tar) (ct.toBits v.toInt))) lc
    rw [hbits]
    rfl
  | bytes | message | repeated | oneof => cases ht

theorem isPacked_of_packedTy (ht : elem.packedTy = some t) : elem.isPacked = true := by
  cases elem with
  | varint => rfl
  | fixed id ty ct p => cases ty <;> rfl
  | bytes | message | repeated | oneof => cases ht

/-- The payload that a packed field writes behind its length. -/
theorem writePacked_bytes (F : FloatCast) (ht : elem.packedTy = some t)
    (he : elem.isElement = true) {vs : List Val} (hvs : ∀ v ∈ vs, elem.elemType.InRange v.toInt)
    (lc : List ℕ) :
    (writePacked elem c vs (sizeT (vs.length * t.tar.size)) lc).bytes =
      t.payloadWrite F (.int elem.elemType) (elem.sameAsWireLayout c)
        (vs.map fun v => elem.elemType.toBits v.toInt) := by
  unfold writePacked PackedTy.payloadWrite
  split_ifs with hs
  · rw [objectBytes_eq ht, List.length_map]
    rfl
  · rw [isPacked_of_packedTy ht, List.flatMap_map]
    induction vs generalizing lc with
    | nil => rfl
    | cons v vs ih =>
      have hone := writeImpl_element F ht he (hvs v (by simp)) lc
      have hrest := ih (fun w hw => hvs w (by simp [hw])) lc
      rw [writeElems, hone, List.flatMap_cons, ← hrest]
      rfl

theorem staticFldSize_eq (ht : elem.packedTy = some t) (hs : elem.isStaticLen = true) :
    elem.staticFldSize = t.tar.size := by
  have hp := isPacked_of_packedTy ht
  cases elem with
  | varint id ty ct p =>
    cases ht
    have hty : ty.tar = .bool := by
      simp [isStaticLen] at hs
      exact hs.2
    simp [staticFldSize, wireSize, hs, hp, tagWireSize, PackedTy.tar, hty, Arith.size, CInt.bits]
  | fixed id ty ct p =>
    cases ht
    simp [staticFldSize, wireSize, hs, hp, tagWireSize, PackedTy.tar, Arith.size, FixedTy.size]
  | bytes | message | repeated | oneof => cases ht

theorem isStaticLen_of_packedTy (ht : elem.packedTy = some t) (hs : elem.isStaticLen = true) :
    t.isStaticLen = true := by
  cases elem with
  | varint id ty ct p =>
    cases ht
    simp [isStaticLen] at hs
    simp [PackedTy.isStaticLen, hs]
  | fixed id ty ct p => cases ht; rfl
  | bytes | message | repeated | oneof => cases ht

theorem stored_bool (F : FloatCast) (ct : CInt) (w : ℕ) :
    PackedTy.stored F (.varint .bool) (.int ct) w = ct.toBits (ct.cast (CInt.bool.cast w)) := by
  have hone : CInt.bool.ofBits (min w 1) = CInt.bool.cast w := by
    simp only [CInt.ofBits, if_true, CInt.cast]
    split_ifs <;> omega
  rw [PackedTy.stored, if_pos rfl, ← hone]
  rfl

theorem stored_fixed (F : FloatCast) (ty : FixedTy) (ct : CInt) (w : ℕ) :
    PackedTy.stored F (.fixed ty) (.int ct) w = ct.toBits (ct.cast (ty.tar.cast w)) := by
  have hbits : ty.tar.ofBits w = ty.tar.cast w := by
    unfold CInt.ofBits
    rw [if_neg (by cases ty <;> decide)]
  rw [PackedTy.stored, if_neg (by simp), ← hbits]
  rfl

/-- `read_impl` of an element, on the bits of the object. -/
theorem pieceVal_eq (F : FloatCast) (ht : elem.packedTy = some t) (hs : elem.isStaticLen = true)
    (p : List UInt8) :
    elem.pieceVal p = .int (elem.elemType.ofBits
      (PackedTy.stored F t (.int elem.elemType) (LittleEndian.load p))) := by
  have hback : ∀ (c : CInt) (x : ℤ), c.ofBits (c.toBits (c.cast x)) = c.cast x :=
    fun c x => CInt.ofBits_toBits (CInt.inRange_cast c x)
  cases elem with
  | varint id ty ct par =>
    cases ht
    obtain rfl : ty = .bool := by
      simp [isStaticLen] at hs
      cases ty <;> simp [VarintTy.tar] at hs ⊢
    have helem : (varint id .bool ct par).elemType = ct := rfl
    rw [helem, stored_bool, hback]
    rfl
  | fixed id ty ct par =>
    cases ht
    have helem : (fixed id ty ct par).elemType = ct := rfl
    rw [helem, stored_fixed, hback]
    rfl
  | bytes | message | repeated | oneof => cases ht

end Fld

/-- The size of a range that cannot be resized. -/
def Container.room : Container → Option ℕ
  | .fixed n _ => some n
  | _ => none

theorem objectVals_eq (c : CInt) (size cnt : ℕ) (bs : List UInt8) :
    objectVals c size cnt bs = (words size cnt bs).map fun w => .int (c.ofBits w) := by
  induction cnt generalizing bs with
  | zero => rfl
  | succ cnt ih => rw [objectVals, words, List.map_cons, ih]; rfl

namespace Fld

section Static

variable {elem : Fld} {t : PackedTy} {c : Container} {F : FloatCast} {bs x : List UInt8} {cnt : ℕ}

theorem readEach_eq (debug : Bool) (ht : elem.packedTy = some t) (he : elem.isElement = true)
    (hs : elem.isStaticLen = true) (hlen : bs.length = cnt * t.tar.size) {es : List Val}
    (hes : es.length = cnt) :
    readEach (.build debug) elem (elem.reader (.build debug)) true es (bs ++ x) bs.length =
      .ok bs.length ((words t.tar.size cnt bs).map fun w =>
        .int (elem.elemType.ofBits (PackedTy.stored F t (.int elem.elemType) w))) := by
  have hp := isPacked_of_packedTy ht
  obtain ⟨ps, hps, hcnt, hsize, hwords⟩ := LittleEndian.exists_words hlen
  have hpieces : ∀ p ∈ ps, elem.Piece p := by
    intro p hmem
    have hpsize := hsize p hmem
    cases elem with
    | varint id ty ct par =>
      cases ht
      have hty : ty.tar = .bool := by
        simp [isStaticLen] at hs
        exact hs.2
      simpa [Piece, hty, PackedTy.tar, Arith.size, CInt.bits] using hpsize
    | fixed id ty ct par => cases ht; exact hpsize
    | bytes | message | repeated | oneof => cases ht
  have hread := (readsPieces debug he hp).readEach (m := .build debug) hp hpieces x true
    (hes.trans hcnt.symm)
  rw [hps, hread, ← hps, hwords, List.map_map]
  exact congrArg (Res.ok _) (List.map_congr_left fun p _ => pieceVal_eq F ht hs p)

/-- A read of objects, as a read of their values. -/
def valuesOf (elem : Fld) (u : Val) : Scan (List ℕ) → Rd
  | .ok n ws => .ok n (.list (ws.map fun w => .int (elem.elemType.ofBits w)))
  | .err e => .err (e, u)
  | .stop s => .stop s

/-- The elements of a payload, into a sequence with a place for each of them. -/
theorem readInto_eq (debug : Bool) (ht : elem.packedTy = some t) (he : elem.isElement = true)
    (hs : elem.isStaticLen = true) (hacc : t.Accepts c.room bs.length) {es : List Val}
    (hes : es.length = bs.length / t.tar.size) (u : Val) :
    (if elem.sameAsWireLayout c then
      match load bs.length (bs ++ x) with
      | none => .stop .fault
      | some bs' => .ok bs.length (.list (objectVals elem.elemType elem.staticFldSize
          (bs.length / elem.staticFldSize) bs'))
    else listOf (readEach (.build debug) elem (elem.reader (.build debug)) true es (bs ++ x)
      bs.length) : Rd) =
      elem.valuesOf u (t.payloadRead F (.int elem.elemType) (elem.sameAsWireLayout c) c.room
        (bs ++ x) bs.length) := by
  have hsize := staticFldSize_eq ht hs
  have hload : load bs.length (bs ++ x) = some bs := by
    rw [load, if_pos (by simp), List.take_left]
  have hlen : bs.length = bs.length / t.tar.size * t.tar.size :=
    (Nat.div_mul_cancel (Nat.dvd_of_mod_eq_zero hacc.1)).symm
  by_cases hcopy : elem.sameAsWireLayout c = true
  · have hlayout : (Arith.int elem.elemType).size = t.tar.size := by
      rw [sameAsWireLayout_eq ht, Bool.and_eq_true] at hcopy
      exact PackedTy.size_eq hcopy.2
    rw [if_pos hcopy, hcopy, PackedTy.payloadRead_accepted hacc, if_pos rfl, hload, hsize, hlayout]
    exact congrArg (fun vs => Res.ok bs.length (Val.list vs)) (objectVals_eq _ _ _ _)
  · have hno : elem.sameAsWireLayout c = false := Bool.eq_false_iff.mpr hcopy
    have hts := isStaticLen_of_packedTy ht hs
    have heach := readEach_eq debug (F := F) (x := x) ht he hs hlen hes
    rw [if_neg hcopy, hno, PackedTy.payloadRead_elements hts hacc, heach, listOf, valuesOf,
      List.map_map]
    rfl

/-- The elements that a packed field reads behind its length, on the bits of the objects. -/
theorem readStatic_eq (debug : Bool) (F : FloatCast) (ht : elem.packedTy = some t)
    (he : elem.isElement = true) (hs : elem.isStaticLen = true) {bs : List UInt8}
    (hdvd : bs.length % t.tar.size = 0) (x : List UInt8) (u : Val) :
    readStatic (.build debug) elem c (elem.reader (.build debug)) (bs ++ x) bs.length u =
      elem.valuesOf u (t.payloadRead F (.int elem.elemType) (elem.sameAsWireLayout c) c.room
        (bs ++ x) bs.length) := by
  have hsize := staticFldSize_eq ht hs
  have hinto := fun (hacc : t.Accepts c.room bs.length) (es : List Val)
      (hes : es.length = bs.length / t.tar.size) =>
    readInto_eq debug (F := F) (x := x) ht he hs hacc hes u
  have hany : ∀ cnt, ((u.elems ++ List.replicate cnt elem.freshVal).take cnt).length = cnt := by
    intro cnt
    simp
  cases c with
  | fixed n array =>
    by_cases hn : bs.length / elem.staticFldSize = n
    · have hacc : t.Accepts (Container.fixed n array).room bs.length := by
        refine ⟨hdvd, fun k hk => ?_⟩
        cases hk
        rw [← hn, hsize]
      have hes : (u.elemsOf n).length = bs.length / t.tar.size := by
        rw [← hsize, hn]
        simp [Val.elemsOf]
      exact (if_pos hn).trans (hinto hacc _ hes)
    · have hrefused : ¬ t.Accepts (Container.fixed n array).room bs.length := by
        intro hacc
        apply hn
        rw [hsize]
        exact (hacc.2 n rfl).symm
      rw [PackedTy.payloadRead_refused hrefused]
      exact if_neg hn
  | vec | set | map =>
    have hes := hany (bs.length / elem.staticFldSize)
    rw [← hsize] at hinto
    exact hinto ⟨hdvd, by simp [Container.room]⟩ _ hes

end Static

end Fld

/-- `memcpy` stands for `write_impl` and `read_impl` of the elements exactly where each of them is
an object that its conversion keeps. -/
theorem wireLayout_iff (F : FloatCast) (t : PackedTy) (a : Arith)
    (h : t.sameAsWireLayout a = true) :
    (∀ ws : List ℕ, (∀ w ∈ ws, a.IsObject w) →
      (t.payloadWrite F a true ws = t.payloadWrite F a false ws ↔
        ws.length * a.size < 2 ^ 32 ∧ ∀ w ∈ ws, F.Keeps a t.tar w)) ∧
    ∀ (room : Option ℕ) (bs x : List UInt8),
      (t.payloadRead F a true room (bs ++ x) bs.length =
          t.payloadRead F a false room (bs ++ x) bs.length ↔
        (t.Accepts room bs.length →
          ∀ w ∈ words a.size (bs.length / a.size) bs, F.Keeps t.tar a w)) := by
  constructor
  · intro ws hws
    exact PackedTy.payloadWrite_iff h hws
  · intro room bs x
    exact PackedTy.payloadRead_iff h room bs x

/-- The conversions of 0, and of 1 to a `float`. -/
def fewCasts : FloatCast where
  toBits
    | .int _, .float, 1 => 0x3f800000
    | _, _, _ => 0
  lt a b w := by
    split
    · decide
    · exact pow_pos (by decide) b.size

theorem wireLayout_zeros :
    (PackedTy.float.payloadWrite fewCasts (.int .u32) true [0, 0] =
        PackedTy.float.payloadWrite fewCasts (.int .u32) false [0, 0] ↔
      [0, 0].length * (Arith.int .u32).size < 2 ^ 32 ∧
        ∀ w ∈ [0, 0], fewCasts.Keeps (.int .u32) PackedTy.float.tar w) ∧
    (PackedTy.float.payloadRead fewCasts (.int .u32) true none ([0, 0, 0, 0] ++ [8]) 4 =
        PackedTy.float.payloadRead fewCasts (.int .u32) false none ([0, 0, 0, 0] ++ [8]) 4 ↔
      (PackedTy.float.Accepts none 4 →
        ∀ w ∈ words (Arith.int .u32).size (4 / (Arith.int .u32).size) [0, 0, 0, 0],
          fewCasts.Keeps PackedTy.float.tar (.int .u32) w)) := by
  have h := wireLayout_iff fewCasts .float (.int .u32) (by decide)
  have hws : ∀ w ∈ [0, 0], (Arith.int .u32).IsObject w := by simp [Arith.IsObject, Arith.size]
  exact ⟨h.1 [0, 0] hws, h.2 none [0, 0, 0, 0] [8]⟩

/-- A `uint8_t` of 2 in a bool field, both ways, and a `uint32_t` of 1 in a float field. -/
theorem not_wireLayout :
    PackedTy.sameAsWireLayout (.varint .bool) (.int .u8) = true ∧
    PackedTy.sameAsWireLayout .float (.int .u32) = true ∧
    PackedTy.payloadWrite fewCasts (.varint .bool) (.int .u8) true [2] ≠
      PackedTy.payloadWrite fewCasts (.varint .bool) (.int .u8) false [2] ∧
    PackedTy.payloadRead fewCasts (.varint .bool) (.int .u8) true none [2] 1 ≠
      PackedTy.payloadRead fewCasts (.varint .bool) (.int .u8) false none [2] 1 ∧
    PackedTy.payloadWrite fewCasts .float (.int .u32) true [1] ≠
      PackedTy.payloadWrite fewCasts .float (.int .u32) false [1] := by
  refine ⟨by decide, by decide, ?_, ?_, ?_⟩
  · decide
  · decide
  · decide

end Jkl.Pb
