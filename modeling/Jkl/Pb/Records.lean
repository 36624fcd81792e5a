import Jkl.Pb.VarintSpec

/-! The wire format: a message is a sequence of records, each a tag and a payload of the tag's wire
type. Records show their own end, so a byte string is such a sequence in one way at most. -/
namespace Jkl.Pb
open Base128

/-- A length and that many bytes. -/
def Delimited (P : List UInt8 → Prop) (p : List UInt8) : Prop :=
  ∃ q body, p = q ++ body ∧ Numeral 32 q ∧ value q = body.length ∧ P body

theorem Delimited.mono {P Q : List UInt8 → Prop} {p : List UInt8} (h : Delimited P p)
    (hPQ : ∀ body, P body → Q body) : Delimited Q p := by
  obtain ⟨q, body, hp, hq, hlen, hP⟩ := h
  exact ⟨q, body, hp, hq, hlen, hPQ body hP⟩

/-- What may follow a tag of the wire type. -/
def PayloadForm (wt : ℕ) (p : List UInt8) : Prop :=
  match wt with
  | 0 => Numeral 64 p
  | 1 => p.length = 8
  | 2 => Delimited (fun _ => True) p
  | 5 => p.length = 4
  | _ => False

structure Rec where
  tagBytes : List UInt8
  payload : List UInt8
  numeral : Numeral 32 tagBytes
  form : PayloadForm (value tagBytes % 8) payload

namespace Rec

/-- A record of a varint field. -/
def ofVarint (q p : List UInt8) (hq : Numeral 32 q) (ht : value q % 8 = 0) (hp : Numeral 64 p) :
    Rec :=
  ⟨q, p, hq, by rw [ht]; exact hp⟩

/-- A record of a length-delimited field. -/
def ofBytes (q k body : List UInt8) (hq : Numeral 32 q) (ht : value q % 8 = 2)
    (hk : Numeral 32 k) (hlen : value k = body.length) : Rec :=
  ⟨q, k ++ body, hq, by rw [ht]; exact ⟨k, body, rfl, hk, hlen, trivial⟩⟩

def tag (r : Rec) : ℕ := value r.tagBytes

def bytes (r : Rec) : List UInt8 := r.tagBytes ++ r.payload

/-- The bytes of a sequence of records. -/
def join (rs : List Rec) : List UInt8 := (rs.map bytes).flatten

@[simp]
theorem join_nil : join [] = [] := rfl

@[simp]
theorem join_cons (r : Rec) (rs : List Rec) : join (r :: rs) = r.bytes ++ join rs := by
  simp [join]

@[simp]
theorem join_append (rs rs' : List Rec) : join (rs ++ rs') = join rs ++ join rs' := by
  simp [join]

end Rec

theorem Delimited.append_inj {P Q : List UInt8 → Prop} {p p' x x' : List UInt8}
    (hp : Delimited P p) (hp' : Delimited Q p') (h : p ++ x = p' ++ x') : p = p' ∧ x = x' := by
  obtain ⟨q, body, rfl, hq, hlen, -⟩ := hp
  obtain ⟨q', body', rfl, hq', hlen', -⟩ := hp'
  rw [List.append_assoc, List.append_assoc] at h
  obtain ⟨rfl, hbody⟩ := hq.1.append_inj hq'.1 h
  obtain ⟨rfl, rfl⟩ := List.append_inj hbody (hlen.symm.trans hlen')
  exact ⟨rfl, rfl⟩

theorem PayloadForm.append_inj {wt : ℕ} {p p' x x' : List UInt8} (hp : PayloadForm wt p)
    (hp' : PayloadForm wt p') (h : p ++ x = p' ++ x') : p = p' ∧ x = x' := by
  unfold PayloadForm at hp hp'
  split at hp
  · exact hp.1.append_inj hp'.1 h
  · exact List.append_inj h (hp.trans hp'.symm)
  · exact hp.append_inj hp' h
  · exact List.append_inj h (hp.trans hp'.symm)
  · exact hp.elim

theorem PayloadForm.ne_nil {wt : ℕ} {p : List UInt8} (hp : PayloadForm wt p) : p ≠ [] := by
  intro h
  subst h
  unfold PayloadForm at hp
  split at hp
  · exact hp.1
  · simp at hp
  · obtain ⟨q, body, h, hq, -⟩ := hp
    exact hq.1.not_nil_append h
  · simp at hp
  · exact hp

namespace Rec

theorem append_inj {r r' : Rec} {x x' : List UInt8} (h : r.bytes ++ x = r'.bytes ++ x') :
    r = r' ∧ x = x' := by
  obtain ⟨q, p, hq, hp⟩ := r
  obtain ⟨q', p', hq', hp'⟩ := r'
  simp only [bytes, List.append_assoc] at h
  obtain ⟨rfl, hrest⟩ := hq.1.append_inj hq'.1 h
  obtain ⟨rfl, rfl⟩ := hp.append_inj hp' hrest
  exact ⟨rfl, rfl⟩

theorem bytes_ne_nil (r : Rec) : r.bytes ≠ [] := by
  intro h
  exact r.numeral.1.ne_nil (List.append_eq_nil_iff.mp h).1

/-- Two sequences of records that begin one byte string: one of them begins the other. -/
theorem join_inj {rs rs' : List Rec} {x : List UInt8} (h : join rs = join rs' ++ x) :
    ∃ rs₂, rs = rs' ++ rs₂ ∧ join rs₂ = x := by
  induction rs' generalizing rs with
  | nil => exact ⟨rs, rfl, h⟩
  | cons r' rs' ih =>
    cases rs with
    | nil =>
      rw [join_nil, join_cons] at h
      have hnil := (List.append_eq_nil_iff.mp h.symm).1
      exact absurd (List.append_eq_nil_iff.mp hnil).1 r'.bytes_ne_nil
    | cons r rs =>
      rw [join_cons, join_cons, List.append_assoc] at h
      obtain ⟨rfl, hrest⟩ := append_inj h
      obtain ⟨rs₂, rfl, hx⟩ := ih hrest
      exact ⟨rs₂, rfl, hx⟩

/-- The records of a message are determined by its bytes. -/
theorem join_injective : Function.Injective join := by
  intro rs rs' h
  have hsplit : join rs = join rs' ++ [] := by rw [h, List.append_nil]
  obtain ⟨rs₂, rfl, hx⟩ := join_inj hsplit
  cases rs₂ with
  | nil => rw [List.append_nil]
  | cons r rs₂ => exact absurd (List.append_eq_nil_iff.mp hx).1 r.bytes_ne_nil

end Rec
end Jkl.Pb
