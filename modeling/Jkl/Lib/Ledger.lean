import Mathlib.Data.List.Nodup
import Mathlib.Logic.Equiv.Basic
import Mathlib.Tactic.Common

/-! Tokens in slots. A token is issued once, into a slot; from there it goes to another slot,
is given away, or is spent. In a balanced ledger no token is in two places and none is lost. -/

variable {ι : Type*}

/-- The tokens issued so far are those below `next`. -/
structure Ledger (ι : Type*) where
  held : ι → Option ℕ
  next : ℕ
  out : List ℕ
  spent : List ℕ

namespace Ledger

def init : Ledger ι := ⟨fun _ => none, 0, [], []⟩

/-- Every token is in one slot, given away, or spent, and in no two of these places. -/
structure Balanced (l : Ledger ι) : Prop where
  single : ∀ i j h, l.held i = some h → l.held j = some h → i = j
  total : ∀ h, h < l.next ↔ (∃ i, l.held i = some h) ∨ h ∈ l.out ∨ h ∈ l.spent
  apart : ∀ i h, l.held i = some h → h ∉ l.out ∧ h ∉ l.spent
  nodup : (l.out ++ l.spent).Nodup

theorem balanced_init : (init : Ledger ι).Balanced where
  single := by simp [init]
  total := by simp [init]
  apart := by simp [init]
  nodup := by simp [init]

section Ops

variable [DecidableEq ι]

def issue (i : ι) (l : Ledger ι) : Ledger ι :=
  { l with held := Function.update l.held i (some l.next), next := l.next + 1 }

def spend (i : ι) (l : Ledger ι) : Ledger ι :=
  { l with held := Function.update l.held i none, spent := l.spent ++ (l.held i).toList }

def giveAway (i : ι) (l : Ledger ι) : Ledger ι :=
  { l with held := Function.update l.held i none, out := l.out ++ (l.held i).toList }

def takeBack (i : ι) (h : ℕ) (l : Ledger ι) : Ledger ι :=
  { l with held := Function.update l.held i (some h), out := l.out.erase h }

def swap (i j : ι) (l : Ledger ι) : Ledger ι :=
  { l with held := Function.update (Function.update l.held i (l.held j)) j (l.held i) }

variable {l : Ledger ι} {i j : ι} {h : ℕ}

omit [DecidableEq ι] in
theorem Balanced.fresh (hl : l.Balanced) : l.next ∉ l.out ∧ l.next ∉ l.spent ∧
    ∀ k, l.held k ≠ some l.next := by
  have hnot : ¬ ((∃ k, l.held k = some l.next) ∨ l.next ∈ l.out ∨ l.next ∈ l.spent) :=
    fun hex => Nat.lt_irrefl _ ((hl.total _).2 hex)
  push Not at hnot
  exact ⟨hnot.2.1, hnot.2.2, hnot.1⟩

theorem Balanced.issue (hl : l.Balanced) (hi : l.held i = none) : (l.issue i).Balanced := by
  obtain ⟨hout, hspent, hheld⟩ := hl.fresh
  constructor
  · intro j k h hj hk
    have hs := hl.single j k h
    simp only [Ledger.issue, Function.update_apply] at hj hk
    grind
  · intro h
    have ht := hl.total h
    simp only [Ledger.issue, Function.update_apply]
    constructor
    · intro hlt
      rcases Nat.lt_succ_iff_lt_or_eq.1 hlt with hlt | rfl
      · rcases ht.1 hlt with ⟨k, hk⟩ | hrest
        · have hki : k ≠ i := by rintro rfl; simp [hi] at hk
          exact .inl ⟨k, by simp [hki, hk]⟩
        · exact .inr hrest
      · exact .inl ⟨i, by simp⟩
    · rintro (⟨k, hk⟩ | hrest)
      · split_ifs at hk with hki
        · obtain rfl := Option.some.inj hk
          exact Nat.lt_succ_self _
        · exact Nat.lt_succ_of_lt (ht.2 (.inl ⟨k, hk⟩))
      · exact Nat.lt_succ_of_lt (ht.2 (.inr hrest))
  · intro k h hk
    have ha := hl.apart k h
    simp only [Ledger.issue, Function.update_apply] at hk ⊢
    grind
  · exact hl.nodup

/-- A token leaves its slot for one of the two lists. -/
theorem Balanced.leave {m : Ledger ι} (hl : l.Balanced)
    (hheld : m.held = Function.update l.held i none) (hnext : m.next = l.next)
    (hperm : (m.out ++ m.spent).Perm ((l.held i).toList ++ (l.out ++ l.spent))) : m.Balanced := by
  have hmem : ∀ h, h ∈ m.out ∨ h ∈ m.spent ↔ l.held i = some h ∨ h ∈ l.out ∨ h ∈ l.spent := by
    intro h
    have := hperm.mem_iff (a := h)
    simpa using this
  constructor
  · intro j k h hj hk
    have hs := hl.single j k h
    simp only [hheld, Function.update_apply] at hj hk
    grind
  · intro h
    rw [hnext, hl.total h, hmem h]
    constructor
    · rintro (⟨k, hk⟩ | hrest)
      · by_cases hki : k = i
        · exact .inr (.inl (hki ▸ hk))
        · exact .inl ⟨k, by simp [hheld, hki, hk]⟩
      · exact .inr (.inr hrest)
    · rintro (⟨k, hk⟩ | hk | hrest)
      · have hki : k ≠ i := by rintro rfl; simp [hheld] at hk
        exact .inl ⟨k, by simpa [hheld, hki] using hk⟩
      · exact .inl ⟨i, hk⟩
      · exact .inr hrest
  · intro k h hk
    have hki : k ≠ i := by rintro rfl; simp [hheld] at hk
    have hkl : l.held k = some h := by simpa [hheld, hki] using hk
    have hni : l.held i ≠ some h := fun hih => hki (hl.single k i h hkl hih)
    have hnot : ¬ (h ∈ m.out ∨ h ∈ m.spent) := by
      rw [hmem h]
      have := hl.apart k h hkl
      tauto
    exact not_or.1 hnot
  · rw [hperm.nodup_iff, List.nodup_append]
    refine ⟨by cases l.held i <;> simp, hl.nodup, ?_⟩
    rintro a ha b hb rfl
    have hin : l.held i = some a := by simpa using ha
    have := hl.apart i a hin
    simp_all

theorem Balanced.spend (hl : l.Balanced) (i : ι) : (l.spend i).Balanced := by
  refine hl.leave (i := i) rfl rfl ?_
  simp only [Ledger.spend]
  rw [← List.append_assoc]
  exact List.perm_append_comm

theorem Balanced.giveAway (hl : l.Balanced) (i : ι) : (l.giveAway i).Balanced := by
  refine hl.leave (i := i) rfl rfl ?_
  simp only [Ledger.giveAway]
  rw [← List.append_assoc]
  exact List.perm_append_comm.append_right _

theorem Balanced.takeBack (hl : l.Balanced) (hi : l.held i = none) (hh : h ∈ l.out) :
    (l.takeBack i h).Balanced := by
  have hnd := List.nodup_append.1 hl.nodup
  have herase : ∀ k, k ∈ l.out.erase h ↔ k ≠ h ∧ k ∈ l.out := fun k => hnd.1.mem_erase_iff
  have hspent : h ∉ l.spent := fun hs => hnd.2.2 h hh h hs rfl
  have hheld : ∀ k, l.held k ≠ some h := fun k hk => (hl.apart k h hk).1 hh
  constructor
  · intro j k g hj hk
    have hs := hl.single j k g
    simp only [Ledger.takeBack, Function.update_apply] at hj hk
    grind
  · intro g
    simp only [Ledger.takeBack, Function.update_apply, herase]
    rw [hl.total g]
    constructor
    · rintro (⟨k, hk⟩ | hrest)
      · have hki : k ≠ i := by rintro rfl; simp [hi] at hk
        exact .inl ⟨k, by simp [hki, hk]⟩
      · by_cases hg : g = h
        · exact .inl ⟨i, by simp [hg]⟩
        · tauto
    · rintro (⟨k, hk⟩ | hrest)
      · split_ifs at hk with hki
        · obtain rfl := Option.some.inj hk
          exact .inr (.inl hh)
        · exact .inl ⟨k, hk⟩
      · tauto
  · intro k g hk
    have ha := hl.apart k g
    simp only [Ledger.takeBack, Function.update_apply, herase] at hk ⊢
    grind
  · simp only [Ledger.takeBack]
    refine List.nodup_append.2 ⟨hnd.1.erase h, hnd.2.1, ?_⟩
    intro a ha b hb
    exact hnd.2.2 a ((herase a).1 ha).2 b hb

theorem held_swap (k : ι) : (l.swap i j).held k = l.held (Equiv.swap i j k) := by
  simp only [swap, Function.update_apply, Equiv.swap_apply_def]
  grind

theorem Balanced.swap (hl : l.Balanced) (i j : ι) : (l.swap i j).Balanced := by
  constructor
  · intro a b h ha hb
    rw [held_swap] at ha hb
    exact (Equiv.swap i j).injective (hl.single _ _ h ha hb)
  · intro h
    rw [show (l.swap i j).next = l.next from rfl, hl.total h]
    refine or_congr_left ⟨?_, ?_⟩
    · rintro ⟨k, hk⟩
      exact ⟨Equiv.swap i j k, by rw [held_swap, Equiv.swap_apply_self, hk]⟩
    · rintro ⟨k, hk⟩
      exact ⟨Equiv.swap i j k, by rw [← held_swap, hk]⟩
  · intro k h hk
    rw [held_swap] at hk
    exact hl.apart _ h hk
  · exact hl.nodup

end Ops

end Ledger
