import Jkl.Uri.Codec
import Jkl.Pb.Types

/-! Ports as numbers: parsing one, and the well-known port of a scheme. -/
namespace Jkl.Uri

open Jkl.Pb (CInt)

/-- `prefix_to_well_known_port`, tried from the first line on. -/
def wellKnownPorts : List (Bytes × ℕ) :=
  [(lit "https:", 443), (lit "http:", 80), (lit "wss:", 443), (lit "ws:", 80), (lit "ftp:", 21),
    (lit "ssh:", 22), (lit "telnet:", 23), (lit "smtp:", 25), (lit "dns:", 53),
    (lit "nntp:", 119), (lit "imap:", 143), (lit "ldap:", 389), (lit "smtps:", 465),
    (lit "rtsp:", 554), (lit "ldaps:", 636), (lit "dnss:", 853), (lit "imaps:", 993),
    (lit "sip:", 5060), (lit "sips:", 5061), (lit "xmpp:", 5222)]

def prefixToWellKnownPort (uri : Bytes) : ℕ :=
  match wellKnownPorts.find? fun p => p.1.isPrefixOf uri with
  | some p => p.2
  | none => 0

def digitsVal (ds : Bytes) : ℕ := ds.foldl (fun n c => n * 10 + (c - 0x30).toNat) 0

/-- `numerify`: `std::from_chars` on the whole text; only a signed type takes a `'-'`. -/
def numerify (ty : CInt) (s : Bytes) : Option ℤ :=
  let neg := ty.signed && s.head? = some ('-' : Byte)
  let ds := if neg then s.tail else s
  let v : ℤ := if neg then -digitsVal ds else digitsVal ds
  if ds ≠ [] ∧ ds.all isDigit ∧ ty.InRange v then some v else none

end Jkl.Uri
