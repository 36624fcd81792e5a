import Jkl.Pb.Types

/-! The machine a read runs on, and what a read returns.

A position is not a number here: a reader is given the memory from `beg` on and the count
`end - beg`, and returns how far it moved. -/
namespace Jkl.Pb

/-- Points of the readers that a run can be watched for. The first three are the source's own
assertions; the others are places where it goes on silently. -/
inductive Event where
  /-- `BOOST_ASSERT(false)`: an unmatched tag whose wire type cannot be skipped. -/
  | wireType
  /-- `BOOST_ASSERT(beg == end)` after the fields of a length-delimited message. -/
  | msgEnd
  /-- `BOOST_ASSERT(beg == end)` after a packed field. -/
  | packedEnd
  /-- A bytes field copies more than its region holds. -/
  | overrun
  /-- An unpacked repeated field takes its tag and reads no element. -/
  | loneTag
  /-- A bool is read from the first byte of a longer varint. -/
  | longBool
  /-- A field of the schema fails with `tag_mismatch` and is then skipped. -/
  | swallow
  /-- A fixed size range that was already read is read again. -/
  | refill
  /-- A run of elements ends before its fixed size range is full. -/
  | shortRun
  /-- A `p_check` returns `tag_mismatch`. -/
  | checkMismatch
  /-- A `p_check` looks at a member that is yet to be cleared. -/
  | staleCheck
deriving DecidableEq, Repr

inductive Stop where
  /-- An access outside the memory. -/
  | fault
  /-- `BOOST_UNREACHABLE_RETURN`. -/
  | unreachable
  | trap (e : Event)
  | fuel
deriving DecidableEq, Repr

/-- A segmented machine gives a length-delimited region no more memory than the region itself;
a machine that traps an event stops where the source would go on. -/
structure Machine where
  segmented : Bool
  traps : Event → Bool

namespace Machine

def isAssertion : Event → Bool
  | .wireType | .msgEnd | .packedEnd => true
  | _ => false

/-- The library as it is built, with assertions or with `NDEBUG`. -/
def build (debug : Bool) : Machine := ⟨false, fun e => debug && isAssertion e⟩

/-- The same program, watched for the given events. -/
def watch (es : List Event) : Machine := ⟨false, fun e => es.contains e⟩

/-- As watched, in memory that ends with each region. -/
def confined (es : List Event) : Machine := ⟨true, fun e => es.contains e⟩

/-- The machine that traps these events as well. -/
def plus (m : Machine) (es : List Event) : Machine := ⟨m.segmented, fun e => m.traps e || es.contains e⟩

def region (m : Machine) (mem : List UInt8) (lim : ℕ) : List UInt8 :=
  if m.segmented then mem.take lim else mem

end Machine

/-- A read that moved `n` bytes on, failed, or left the language. -/
inductive Res (ε α : Type) where
  | ok (n : ℕ) (a : α)
  | err (e : ε)
  | stop (s : Stop)
deriving DecidableEq, Repr

/-- A primitive read. -/
abbrev Scan := Res PbErr

/-- A read into a target; on failure the target keeps what was already stored. -/
abbrev Rd := Res (PbErr × Val) Val

abbrev Reader := List UInt8 → ℕ → Val → Rd

namespace Res

variable {ε α β : Type}

def advance (k : ℕ) : Res ε α → Res ε α
  | .ok n a => .ok (k + n) a
  | .err e => .err e
  | .stop s => .stop s

def map (f : α → β) : Res ε α → Res ε β
  | .ok n a => .ok n (f a)
  | .err e => .err e
  | .stop s => .stop s

/-- `JKL_TRY` on a primitive read, with `v` the target so far. -/
def andThen (r : Scan α) (v : Val) (k : ℕ → α → Rd) : Rd :=
  match r with
  | .ok n a => k n a
  | .err e => .err (e, v)
  | .stop s => .stop s

/-- The same read seen from an enclosing target. -/
def within (f : Val → Val) : Rd → Rd
  | .ok n v => .ok n (f v)
  | .err (e, v) => .err (e, f v)
  | .stop s => .stop s

end Res

/-- The first `n` bytes of the memory, if there are so many. -/
def load (n : ℕ) (mem : List UInt8) : Option (List UInt8) :=
  if n ≤ mem.length then some (mem.take n) else none

namespace Machine

def check {ε α : Type} (m : Machine) (e : Event) (bad : Bool) (r : Res ε α) : Res ε α :=
  if m.traps e && bad then .stop (.trap e) else r

end Machine

end Jkl.Pb
