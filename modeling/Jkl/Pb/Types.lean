import Mathlib.Algebra.Group.Int.Defs
import Mathlib.Algebra.Group.Nat.Defs
import Mathlib.Data.Int.Basic
import Mathlib.Tactic.Common

/-! Wire types, errors and C++ values. -/
namespace Jkl.Pb

/-- `pb_wire_type`. -/
inductive WireType where
  | varint
  | fix64
  | lenDlm
  | fix32
deriving DecidableEq, Repr

def WireType.code : WireType → ℕ
  | .varint => 0
  | .fix64 => 1
  | .lenDlm => 2
  | .fix32 => 5

/-- `pb_err`; `user` is an error of another category, which only a `p_check` can return. -/
inductive PbErr where
  | tagMismatch
  | varintTooLarge
  | varintIncomplete
  | fixedIncomplete
  | repeatedIncomplete
  | bytesIncomplete
  | msgIncomplete
  | invalidLength
  | moreDataThanRequired
  | validationFailed
  | requiredFieldMissing
  | user (code : ℕ)
deriving DecidableEq, Repr

/-- The integral C++ types of at most eight bytes. -/
inductive CInt where
  | bool
  | i8
  | i16
  | i32
  | i64
  | u8
  | u16
  | u32
  | u64
deriving DecidableEq, Repr

namespace CInt

/-- `sizeof(T) * 8`. -/
def bits : CInt → ℕ
  | .bool | .i8 | .u8 => 8
  | .i16 | .u16 => 16
  | .i32 | .u32 => 32
  | .i64 | .u64 => 64

def signed : CInt → Bool
  | .i8 | .i16 | .i32 | .i64 => true
  | _ => false

def InRange : CInt → ℤ → Prop
  | .bool, x => x = 0 ∨ x = 1
  | c, x => if c.signed then -2 ^ (c.bits - 1) ≤ x ∧ x < 2 ^ (c.bits - 1) else 0 ≤ x ∧ x < 2 ^ c.bits

instance (c : CInt) (x : ℤ) : Decidable (c.InRange x) := by
  unfold InRange; split <;> infer_instance

/-- `static_cast<T>(x)`. -/
def cast : CInt → ℤ → ℤ
  | .bool, x => if x = 0 then 0 else 1
  | c, x =>
    if c.signed then (x + 2 ^ (c.bits - 1)) % 2 ^ c.bits - 2 ^ (c.bits - 1) else x % 2 ^ c.bits

theorem inRange_cast (c : CInt) (x : ℤ) : c.InRange (c.cast x) := by
  cases c <;> simp [InRange, cast, signed, bits] <;> omega

theorem cast_of_inRange {c : CInt} {x : ℤ} (h : c.InRange x) : c.cast x = x := by
  cases c <;> simp [InRange, cast, signed, bits] at h ⊢ <;> omega

end CInt

/-- A C++ object as the library sees it. A member of a struct is named by its position, and a
`bool` is 0 or 1. -/
inductive Val where
  | int (x : ℤ)
  | bytes (bs : List UInt8)
  | none
  | some (v : Val)
  | list (vs : List Val)
  | msg (vs : List Val)
  | oneof (i : ℕ) (v : Val)

namespace Val

/- `operator==`, member by member. -/
mutual
def eqv : Val → Val → Bool
  | .int x, .int y => x == y
  | .bytes x, .bytes y => x == y
  | .none, .none => true
  | .some x, .some y => eqv x y
  | .list x, .list y => eqvs x y
  | .msg x, .msg y => eqvs x y
  | .oneof i x, .oneof j y => i == j && eqv x y
  | _, _ => false
def eqvs : List Val → List Val → Bool
  | [], [] => true
  | x :: xs, y :: ys => eqv x y && eqvs xs ys
  | _, _ => false
end

mutual
theorem eqv_iff (x y : Val) : eqv x y = true ↔ x = y := by
  cases x <;> cases y <;> simp [eqv, eqv_iff, eqvs_iff]
theorem eqvs_iff (xs ys : List Val) : eqvs xs ys = true ↔ xs = ys := by
  cases xs <;> cases ys <;> simp [eqvs, eqv_iff, eqvs_iff]
end

def toInt : Val → ℤ
  | .int x => x
  | _ => 0

def toBytes : Val → List UInt8
  | .bytes bs => bs
  | _ => []

def elems : Val → List Val
  | .list vs => vs
  | _ => []

def members : Val → List Val
  | .msg vs => vs
  | _ => []

/-- The members of a struct that has `n` of them. -/
def membersOf (n : ℕ) (v : Val) : List Val := (v.members ++ List.replicate n Val.none).take n

/-- The elements of a range that always has `n` of them. -/
def elemsOf (n : ℕ) (v : Val) : List Val := (v.elems ++ List.replicate n Val.none).take n

/-- The index and the value of the active member; index 0 is `std::monostate`. -/
def active : Val → ℕ × Val
  | .oneof i v => (i, v)
  | _ => (0, .none)

/-- `operator*` of an `std::optional`. -/
def get : Val → Val
  | .some v => v
  | v => v

def isSome : Val → Bool
  | .some _ => true
  | _ => false

instance : DecidableEq Val := fun x y => decidable_of_iff _ (eqv_iff x y)

end Val

end Jkl.Pb
