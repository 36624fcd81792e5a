import Jkl.Uri.Port
import Mathlib.Data.Nat.Digits.Defs

/-! Components a writer can hold, and the values their numbers and query pairs are made of. -/
namespace Jkl.Uri

open Jkl.Pb (CInt)

/-! Values as text. -/

/-- An object of an arithmetic type. Of a floating-point number only its text counts, which
fits the 25 bytes its printer asks for, and which natural number it equals, if any. -/
inductive Num where
  | bool (b : Bool)
  | int (ty : CInt) (n : ℤ) (h : ty ≠ .bool ∧ ty.InRange n)
  | float (nat : Option ℕ) (text : Bytes) (h : text.length ≤ 25)

def digits (n : ℕ) : Bytes :=
  if n = 0 then ['0'] else ((Nat.digits 10 n).map fun d => 0x30 + UInt8.ofNat d).reverse

namespace Num

/-- The number equals `k`. -/
def is (k : ℕ) : Num → Bool
  | bool b => b.toNat = k
  | int _ n _ => n = k
  | float nat _ _ => nat = some k

/-- `stringify_integer_max_bytes<10, V>`. -/
def intMaxBytes (ty : CInt) : ℕ :=
  (match ty.bits with
    | 8 => 3
    | 16 => 5
    | 32 => 10
    | _ => 20) + if ty.signed then 1 else 0

def maxStringifySize : Num → ℕ
  | bool b => if b then 4 else 5
  | int ty _ _ => intMaxBytes ty
  | float _ _ _ => 25

def text : Num → Bytes
  | bool b => if b then lit "true" else lit "false"
  | int _ n _ => if n < 0 then '-' :: digits n.natAbs else digits n.natAbs
  | float _ text _ => text

/-- `stringify`. A number goes through a `fixed_storage_str`, whose `set_end` asserts that its
last byte stays free. -/
def stringify (asserts : Bool) (n : Num) : Out :=
  match n with
  | bool _ => .ok n.text
  | _ => if asserts ∧ n.maxStringifySize ≤ n.text.length then .halt .assertion else .ok n.text

end Num

/-- What `stringify` takes. -/
inductive Value where
  | str (s : Bytes)
  | null
  | num (n : Num)

namespace Value

def maxStringifySize : Value → ℕ
  | str s => s.length
  | null => 4
  | num n => n.maxStringifySize

def stringify (asserts : Bool) : Value → Out
  | str s => .ok s
  | null => .ok (lit "null")
  | num n => n.stringify asserts

end Value

/-- The components by their tag: `uri_str_comp`; `uri_ipaddr_comp`, for which `text` is what
`to_string` of the address gives; `uri_port_comp`; `uri_auto_port_comp`; and for a query
`uri_query_kvs_comp` and `uri_query_range_or_cont_comp`, which size and write alike. -/
inductive WriteComp : Tag → Type where
  | str {t : Tag} (h : t ≠ .autoPort) (codec : Codec) (s : Bytes) : WriteComp t
  | ipaddr (text : Bytes) (unspecified : Bool) : WriteComp .host
  | port (n : Num) : WriteComp .port
  | autoPort (n : Num) : WriteComp .autoPort
  | pairs (codec : Codec) (kvs : List (Bytes × Value)) : WriteComp .query

/-- `_append_query_pair`. -/
def appendQueryPair (asserts : Bool) (dest codec : Codec) (kv : Bytes × Value) : Out :=
  let v := kv.2.stringify asserts
  codecCvtAppend asserts .query dest codec kv.1 ++ .ok ['='] ++
    match v.stop with
    | none => codecCvtAppend asserts .query dest codec v.text ++ .ok ['&']
    | some e => .halt e

def appendQueryPairs (asserts : Bool) (dest codec : Codec) : List (Bytes × Value) → Out
  | [] => .ok []
  | kv :: kvs => appendQueryPair asserts dest codec kv ++ appendQueryPairs asserts dest codec kvs

namespace WriteComp

variable {t : Tag}

def nonEmpty : WriteComp t → Bool
  | str _ _ s => s ≠ []
  | ipaddr _ unspecified => !unspecified
  | port n => !n.is 0
  | autoPort _ => true
  | pairs _ kvs => !kvs.isEmpty

def maxWriteSize (dest : Codec) : WriteComp t → ℕ
  | str _ codec s => maxCodecCvtSize t dest codec s.length
  | ipaddr _ _ => 45
  | port n => n.maxStringifySize
  | autoPort n => 1 + n.maxStringifySize
  | pairs codec kvs =>
    let n := (kvs.map fun kv => kv.1.length + kv.2.maxStringifySize).sum
    if dest = .urlEncoded ∧ codec = .urlDecoded then n * 3 + kvs.length * 2
    else n + kvs.length * 2

/-- `write<DestCodec>`. The last `'&'` of a query is written, then taken back. -/
def write (asserts : Bool) (dest : Codec) : WriteComp t → Out
  | str _ codec s => codecCvtAppend asserts t dest codec s
  | ipaddr text _ => .ok ([('[' : Byte)] ++ text ++ [(']' : Byte)])
  | port n => n.stringify asserts
  | autoPort _ => .ok []
  | pairs codec kvs => (appendQueryPairs asserts dest codec kvs).back

/-- `append_colon_port_to`; `uri` is the text written so far. -/
def appendColonPortTo (asserts : Bool) (uri : Bytes) : WriteComp .autoPort → Out
  | autoPort n =>
    if n.is 0 ∨ n.is (prefixToWellKnownPort uri) then .ok []
    else
      match (n.stringify asserts).stop with
      | none => .ok [':'] ++ n.stringify asserts
      | some e => .halt e
  | str h _ _ => absurd rfl h

section Str

variable {h : t ≠ .autoPort} {codec dest : Codec} {asserts : Bool} {s : Bytes}

@[simp] theorem nonEmpty_str : (str h codec s).nonEmpty = decide (s ≠ []) := rfl

@[simp] theorem maxWriteSize_str :
    (str h codec s).maxWriteSize dest = maxCodecCvtSize t dest codec s.length := rfl

@[simp] theorem write_str :
    (str h codec s).write asserts dest = codecCvtAppend asserts t dest codec s := rfl

end Str

end WriteComp

end Jkl.Uri
