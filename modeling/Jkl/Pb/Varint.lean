import Jkl.Lib.Base128
import Jkl.Pb.Machine
import Mathlib.Data.Nat.Bits

/-! The varint codec of `varint.hpp`. -/
namespace Jkl.Pb
open Base128

/-- Bits of `fast_uint_t`. -/
def fastBits (bits : ℕ) : ℕ := if bits ≤ 32 then 32 else 64

/-- Bits of `varint_uint_t`. -/
def varintUintBits (zigzag : Bool) (c : CInt) : ℕ :=
  if c = .bool then 8 else if !zigzag && c.signed then 64 else c.bits

def maxVarintWireSize (bits : ℕ) : ℕ := bits / 7 + 1

def maxVarintLastByte (bits : ℕ) : ℕ := 2 ^ (bits % 7) - 1

def zigzagEncode (c : CInt) (x : ℤ) : ℕ :=
  let v := BitVec.ofInt (fastBits c.bits) x
  ((v <<< 1) ^^^ v.sshiftRight (c.bits - 1)).toNat

def zigzagDecode (bits : ℕ) (u : ℕ) : ℕ :=
  let u := BitVec.ofNat (fastBits bits) u
  ((u >>> 1) ^^^ (~~~(u &&& 1#_) + 1#_)).toNat

/-- The unsigned value that is put on the wire. -/
def varintUint (zigzag : Bool) (c : CInt) (x : ℤ) : ℕ :=
  if zigzag then zigzagEncode c x else (x % 2 ^ fastBits (varintUintBits false c)).toNat

/-- `sizeof(u) * 8 - countl_zero(u | 1)` is the number of significant bits of `u | 1`. -/
def varintWireSize (zigzag : Bool) (c : CInt) (x : ℤ) : ℕ :=
  if c = .bool then 1 else ((varintUint zigzag c x ||| 1).log2 + 1 + 6) / 7

/-- The loop of `append_varint`; ten turns are enough for any 64-bit value. -/
def appendGroups : ℕ → ℕ → List UInt8
  | 0, _ => []
  | k + 1, u =>
    if 0x80 ≤ u then UInt8.ofNat (u ||| 0x80) :: appendGroups k (u >>> 7) else [UInt8.ofNat u]

def appendVarint (zigzag : Bool) (c : CInt) (x : ℤ) : List UInt8 :=
  if c = .bool then [UInt8.ofNat x.toNat] else appendGroups 10 (varintUint zigzag c x)

/-- The fast path: `left` more bytes may be read, the last of them at most `maxLast`. -/
def readVarintFast (maxLast : ℕ) : (left : ℕ) → List UInt8 → (shift u n : ℕ) → Scan ℕ
  | 0, _, _, _, _ => .err .varintTooLarge
  | _ + 1, [], _, _, _ => .stop .fault
  | left + 1, b :: mem, shift, u, n =>
    let t := b.toNat
    if left = 0 then
      if t ≤ maxLast then .ok (n + 1) (u ||| t <<< shift) else .err .varintTooLarge
    else if t < 0x80 then .ok (n + 1) (u ||| (t &&& 0x7f) <<< shift)
    else readVarintFast maxLast left mem (shift + 7) (u ||| (t &&& 0x7f) <<< shift) (n + 1)

/-- The slow path: fewer bytes are left than the longest numeral has, so nothing can overflow. -/
def readVarintSlow : (lim : ℕ) → List UInt8 → (shift u n : ℕ) → Scan ℕ
  | 0, _, _, _, _ => .err .varintIncomplete
  | _ + 1, [], _, _, _ => .stop .fault
  | lim + 1, b :: mem, shift, u, n =>
    let t := b.toNat
    if 0x80 ≤ t then readVarintSlow lim mem (shift + 7) (u ||| (t &&& 0x7f) <<< shift) (n + 1)
    else .ok (n + 1) (u ||| t <<< shift)

/-- `read_varint` into an unsigned type of `bits` bits. -/
def readVarintUint (bits : ℕ) (mem : List UInt8) (lim : ℕ) : Scan ℕ :=
  if maxVarintWireSize bits ≤ lim then
    readVarintFast (maxVarintLastByte bits) (maxVarintWireSize bits) mem 0 0 0
  else readVarintSlow lim mem 0 0 0

def readVarint (zigzag : Bool) (c : CInt) (mem : List UInt8) (lim : ℕ) : Scan ℤ :=
  if c = .bool then
    if 0 < lim then
      match mem with
      | [] => .stop .fault
      | b :: _ => .ok 1 (c.cast b.toNat)
    else .err .varintIncomplete
  else
    match readVarintUint (varintUintBits zigzag c) mem lim with
    | .ok n u => .ok n (c.cast (if zigzag then zigzagDecode c.bits u else u))
    | .err e => .err e
    | .stop s => .stop s

/-- `skip_varint`: the same scan as for 64 bits, without the value. -/
def skipVarintFast (maxLast : ℕ) : (left : ℕ) → List UInt8 → (n : ℕ) → Scan Unit
  | 0, _, _ => .err .varintTooLarge
  | _ + 1, [], _ => .stop .fault
  | left + 1, b :: mem, n =>
    if left = 0 then if b.toNat ≤ maxLast then .ok (n + 1) () else .err .varintTooLarge
    else if b.toNat < 0x80 then .ok (n + 1) ()
    else skipVarintFast maxLast left mem (n + 1)

def skipVarintSlow : (lim : ℕ) → List UInt8 → (n : ℕ) → Scan Unit
  | 0, _, _ => .err .varintIncomplete
  | _ + 1, [], _ => .stop .fault
  | lim + 1, b :: mem, n =>
    if 0x80 ≤ b.toNat then skipVarintSlow lim mem (n + 1) else .ok (n + 1) ()

def skipVarint (mem : List UInt8) (lim : ℕ) : Scan Unit :=
  if maxVarintWireSize 64 ≤ lim then
    skipVarintFast (maxVarintLastByte 64) (maxVarintWireSize 64) mem 0
  else skipVarintSlow lim mem 0

/-- `varint_bytes<V>` for a 32-bit unsigned `V`. -/
def varintBytes (u : ℕ) : List UInt8 := appendVarint false .u32 u

/-- At least one byte has to follow the numeral. -/
def startsWithVarintBytes (u : ℕ) (mem : List UInt8) (lim : ℕ) : Option ℕ :=
  if (varintBytes u).length < lim ∧ mem.take (varintBytes u).length = varintBytes u then
    some (varintBytes u).length
  else none

example : appendVarint false .u32 14882 = [0xa2, 0x74] := by decide
example : appendVarint false .i32 (-1) = List.replicate 9 0xff ++ [1] := by decide
example : readVarint true .i32 [3] 1 = .ok 1 (-2) := by decide

end Jkl.Pb
