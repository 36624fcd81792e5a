import Mathlib.Tactic.Ring
import Mathlib.Tactic.Linarith

/-! Words of a fixed number of bytes, least significant byte first. -/
namespace LittleEndian

def store : ℕ → ℕ → List UInt8
  | 0, _ => []
  | k + 1, n => UInt8.ofNat n :: store k (n / 256)

def load : List UInt8 → ℕ
  | [] => 0
  | b :: bs => b.toNat + 256 * load bs

@[simp]
theorem length_store (k n : ℕ) : (store k n).length = k := by
  induction k generalizing n with
  | zero => rfl
  | succ k ih => simp [store, ih]

theorem load_lt (bs : List UInt8) : load bs < 256 ^ bs.length := by
  induction bs with
  | nil => simp [load]
  | cons b bs ih =>
    have hb := b.toNat_lt
    simp only [load, List.length_cons, pow_succ]
    omega

theorem load_store {k n : ℕ} (h : n < 256 ^ k) : load (store k n) = n := by
  induction k generalizing n with
  | zero => simp at h; simp [store, load, h]
  | succ k ih =>
    have hd : n / 256 < 256 ^ k := by
      rw [pow_succ] at h
      omega
    have hb : (UInt8.ofNat n).toNat = n % 256 := UInt8.toNat_ofNat'
    rw [store, load, ih hd, hb]
    omega

section Words

/-- The first `n` words of `k` bytes each. -/
def words (k : ℕ) : (n : ℕ) → List UInt8 → List ℕ
  | 0, _ => []
  | n + 1, bs => load (bs.take k) :: words k n (bs.drop k)

theorem lt_of_mem_words {k n w : ℕ} {bs : List UInt8} (h : w ∈ words k n bs) : w < 256 ^ k := by
  induction n generalizing bs with
  | zero => simp [words] at h
  | succ n ih =>
    rcases List.mem_cons.mp h with rfl | h
    · apply lt_of_lt_of_le (load_lt (bs.take k))
      apply Nat.pow_le_pow_right (by norm_num)
      exact List.length_take_le k bs
    · exact ih h

/-- Words are pieces of the bytes. -/
theorem exists_words {k n : ℕ} {bs : List UInt8} (h : bs.length = n * k) :
    ∃ ps : List (List UInt8), bs = ps.flatten ∧ ps.length = n ∧ (∀ p ∈ ps, p.length = k) ∧
      words k n bs = ps.map load := by
  induction n generalizing bs with
  | zero =>
    have hnil : bs = [] := List.eq_nil_of_length_eq_zero (by simpa using h)
    exact ⟨[], hnil, rfl, by simp, rfl⟩
  | succ n ih =>
    rw [Nat.succ_mul] at h
    have hdrop : (bs.drop k).length = n * k := by
      rw [List.length_drop]
      omega
    obtain ⟨ps, hps, hlen, hsize, hwords⟩ := ih hdrop
    refine ⟨bs.take k :: ps, ?_, by rw [List.length_cons, hlen], ?_, by rw [words, hwords]; rfl⟩
    · rw [List.flatten_cons, ← hps, List.take_append_drop]
    · intro p hp
      rcases List.mem_cons.mp hp with rfl | hp
      · rw [List.length_take]
        omega
      · exact hsize p hp

theorem length_flatMap_store (k : ℕ) (ws : List ℕ) :
    (ws.flatMap (store k)).length = ws.length * k := by
  induction ws with
  | nil => simp
  | cons w ws ih => rw [List.flatMap_cons, List.length_append, length_store, ih, List.length_cons,
      Nat.succ_mul, Nat.add_comm]

theorem words_flatMap_store {k : ℕ} {ws : List ℕ} (h : ∀ w ∈ ws, w < 256 ^ k) :
    words k ws.length (ws.flatMap (store k)) = ws := by
  induction ws with
  | nil => rfl
  | cons w ws ih =>
    have hlen := length_store k w
    rw [List.flatMap_cons, List.length_cons, words, List.take_append_of_le_length hlen.ge,
      List.drop_append_of_le_length hlen.ge, List.take_of_length_le hlen.le,
      List.drop_of_length_le hlen.le, load_store (h w (by simp)), List.nil_append,
      ih fun v hv => h v (by simp [hv])]

theorem flatMap_store_inj {k : ℕ} {vs ws : List ℕ} (hvs : ∀ v ∈ vs, v < 256 ^ k)
    (hws : ∀ w ∈ ws, w < 256 ^ k) (hlen : vs.length = ws.length) :
    vs.flatMap (store k) = ws.flatMap (store k) ↔ vs = ws := by
  constructor
  · intro h
    rw [← words_flatMap_store hvs, ← words_flatMap_store hws, h, hlen]
  · intro h
    rw [h]

end Words

end LittleEndian
