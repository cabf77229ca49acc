import Mathlib

/-!
# Numbered blocks with one owner each

Slots hold block numbers, with zero for an empty slot, and a map says which blocks of an area
are used. `Owned` says that no block is in two slots and that the used blocks are exactly those
in a slot, apart from a set of loose ones: blocks between the moment they are taken and the
moment they are put in a slot, or given back.
-/

namespace Xv6Prng.BlockMap

open Function

variable {κ : Type*}

structure Owned (addr : κ → ℕ) (used : ℕ → Prop) (lo hi : ℕ) (loose : Set ℕ) : Prop where
  pos : 0 < lo
  inj : ∀ k l, addr k = addr l → addr k ≠ 0 → k = l
  range : ∀ k, addr k ≠ 0 → lo ≤ addr k ∧ addr k < hi
  used_iff : ∀ b, lo ≤ b → b < hi → (used b ↔ b ∈ loose ∨ ∃ k, addr k = b)
  loose_range : ∀ b ∈ loose, lo ≤ b ∧ b < hi
  loose_ne : ∀ b ∈ loose, ∀ k, addr k ≠ b

namespace Owned

variable {addr addr' : κ → ℕ} {used used' : ℕ → Prop} {lo hi b : ℕ} {loose loose' : Set ℕ} {k : κ}

section Owned

variable (h : Owned addr used lo hi loose)
include h

theorem used_addr (hk : addr k ≠ 0) : used (addr k) := by
  obtain ⟨hlo, hhi⟩ := h.range k hk
  exact (h.used_iff _ hlo hhi).mpr (.inr ⟨k, rfl⟩)

theorem addr_ne (hb : ¬ used b) (hb0 : b ≠ 0) (k : κ) : addr k ≠ b := by
  rintro rfl
  exact hb (h.used_addr hb0)

theorem congr (haddr : ∀ k, addr' k = addr k)
    (hused : ∀ b, lo ≤ b → b < hi → (used' b ↔ used b)) : Owned addr' used' lo hi loose := by
  obtain rfl : addr' = addr := funext haddr
  exact { h with used_iff := fun b hlo hhi => (hused b hlo hhi).trans (h.used_iff b hlo hhi) }

theorem take (used' : ℕ → Prop) (hlo : lo ≤ b) (hhi : b < hi)
    (hb : ¬ used b) (hused : ∀ c, lo ≤ c → c < hi → (used' c ↔ c = b ∨ used c)) :
    Owned addr used' lo hi (insert b loose) where
  __ := h
  used_iff c hc hc' := by
    rw [hused c hc hc', h.used_iff c hc hc', Set.mem_insert_iff, or_assoc]
  loose_range c hc := by
    rcases Set.mem_insert_iff.mp hc with rfl | hc
    · exact ⟨hlo, hhi⟩
    · exact h.loose_range c hc
  loose_ne c hc := by
    rcases Set.mem_insert_iff.mp hc with rfl | hc
    · exact h.addr_ne hb (Nat.ne_of_gt (h.pos.trans_le hlo))
    · exact h.loose_ne c hc

end Owned

theorem fill [DecidableEq κ] (h : Owned addr used lo hi (insert b loose)) (hb : b ∉ loose)
    (hk : addr k = 0) : Owned (update addr k b) used lo hi loose := by
  have hloose := Set.mem_insert b loose
  obtain ⟨hlo, hhi⟩ := h.loose_range b hloose
  have hne := h.loose_ne b hloose
  refine ⟨h.pos, fun l m hlm hl0 => ?_, fun l hl0 => ?_, fun c hc hc' => ?_, fun c hc => ?_,
    fun c hc l => ?_⟩
  · by_cases hl : l = k <;> by_cases hm : m = k
    · rw [hl, hm]
    · rw [hl, update_self, update_of_ne hm] at hlm
      exact absurd hlm.symm (hne m)
    · rw [hm, update_self, update_of_ne hl] at hlm
      exact absurd hlm (hne l)
    · rw [update_of_ne hl] at hlm hl0
      rw [update_of_ne hm] at hlm
      exact h.inj l m hlm hl0
  · by_cases hl : l = k
    · rw [hl, update_self]
      exact ⟨hlo, hhi⟩
    · rw [update_of_ne hl] at hl0 ⊢
      exact h.range l hl0
  · rw [h.used_iff c hc hc', Set.mem_insert_iff, or_assoc]
    have hc0 : c ≠ 0 := Nat.ne_of_gt (h.pos.trans_le hc)
    constructor
    · rintro (rfl | hin | ⟨l, hl⟩)
      · exact .inr ⟨k, update_self ..⟩
      · exact .inl hin
      · have hlk : l ≠ k := by
          rintro rfl
          exact hc0 (hl.symm.trans hk)
        exact .inr ⟨l, by rw [update_of_ne hlk, hl]⟩
    · rintro (hin | ⟨l, hl⟩)
      · exact .inr (.inl hin)
      · by_cases hlk : l = k
        · rw [hlk, update_self] at hl
          exact .inl hl.symm
        · rw [update_of_ne hlk] at hl
          exact .inr (.inr ⟨l, hl⟩)
  · exact h.loose_range c (Set.mem_insert_of_mem b hc)
  · by_cases hl : l = k
    · rw [hl, update_self]
      rintro rfl
      exact hb hc
    · rw [update_of_ne hl]
      exact h.loose_ne c (Set.mem_insert_of_mem b hc) l
end Owned

end Xv6Prng.BlockMap
