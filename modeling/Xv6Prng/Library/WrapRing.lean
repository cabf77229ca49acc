import Mathlib

/-!
# Rings with free-running counters

A ring of `N` cells with two counters of `w` bits that only ever grow, and wrap. A counter is
a position in the ring modulo `N`, which wrapping does not change if `N` divides `2 ^ w`.
`Carries` relates the cells and the counters to the list of everything stored so far and the
list of everything taken; the second is always a prefix of the first.
-/

namespace Xv6Prng.WrapRing

variable {α : Type*} {N w : ℕ}

def cell (N : ℕ) [NeZero N] (c : BitVec w) : Fin N := Fin.ofNat N c.toNat

theorem cell_ofNat [NeZero N] (hN : N ∣ 2 ^ w) (k : ℕ) :
    cell N (BitVec.ofNat w k) = Fin.ofNat N k := by
  apply Fin.ext
  simp [cell, Nat.mod_mod_of_dvd k hN]

theorem toNat_ofNat_sub {m n : ℕ} (hle : n ≤ m) (hlt : m - n < 2 ^ w) :
    (BitVec.ofNat w m - BitVec.ofNat w n).toNat = m - n := by
  obtain ⟨d, rfl⟩ := Nat.exists_eq_add_of_le hle
  rw [Nat.add_sub_cancel_left] at hlt ⊢
  rw [BitVec.ofNat_add, BitVec.add_comm, BitVec.add_sub_cancel, BitVec.toNat_ofNat,
    Nat.mod_eq_of_lt hlt]

structure Carries [NeZero N] (data : Fin N → α) (nread nwrite : BitVec w)
    (stored taken : List α) : Prop where
  isPrefix : taken <+: stored
  bound : stored.length ≤ taken.length + N
  nread_eq : nread = BitVec.ofNat w taken.length
  nwrite_eq : nwrite = BitVec.ofNat w stored.length
  data_eq : ∀ k (hk : k < stored.length), taken.length ≤ k → data (Fin.ofNat N k) = stored[k]

section

variable [NeZero N] {data : Fin N → α} {nread nwrite : BitVec w} {stored taken : List α}

theorem carries_empty (data : Fin N → α) : Carries data (0 : BitVec w) 0 [] [] where
  isPrefix := List.prefix_rfl
  bound := Nat.zero_le _
  nread_eq := rfl
  nwrite_eq := rfl
  data_eq k hk _ := absurd hk (Nat.not_lt_zero k)

namespace Carries

section Carries

variable (h : Carries data nread nwrite stored taken)
include h

theorem length_le : taken.length ≤ stored.length :=
  h.isPrefix.length_le

theorem toNat_sub (hN : N < 2 ^ w) : (nwrite - nread).toNat = stored.length - taken.length := by
  have hbound := h.bound
  rw [h.nwrite_eq, h.nread_eq]
  exact toNat_ofNat_sub h.length_le (by omega)

theorem empty_iff (hN : N < 2 ^ w) : nread = nwrite ↔ stored.length = taken.length := by
  constructor
  · intro heq
    have hsub := h.toNat_sub hN
    rw [heq, BitVec.sub_self, BitVec.toNat_zero] at hsub
    have hle := h.length_le
    omega
  · intro hlen
    rw [h.nread_eq, h.nwrite_eq, hlen]

theorem full_iff (hN : N < 2 ^ w) :
    nwrite = nread + BitVec.ofNat w N ↔ stored.length = taken.length + N := by
  constructor
  · intro heq
    have hsub := h.toNat_sub hN
    rw [heq, BitVec.add_comm, BitVec.add_sub_cancel, BitVec.toNat_ofNat, Nat.mod_eq_of_lt hN] at hsub
    have hle := h.length_le
    omega
  · intro hlen
    rw [h.nread_eq, h.nwrite_eq, hlen, BitVec.ofNat_add]

theorem store (hN : N ∣ 2 ^ w) (hroom : stored.length ≠ taken.length + N) (b : α) :
    Carries (Function.update data (cell N nwrite) b) nread (nwrite + 1) (stored ++ [b]) taken := by
  have hbound := h.bound
  have hcell : cell N nwrite = Fin.ofNat N stored.length := by
    rw [h.nwrite_eq, cell_ofNat hN]
  refine ⟨h.isPrefix.trans (List.prefix_append _ _), ?_, h.nread_eq, ?_, fun k hk hlo => ?_⟩
  · simp only [List.length_append, List.length_singleton]
    omega
  · simp only [List.length_append, List.length_singleton, BitVec.ofNat_add, h.nwrite_eq]
    rfl
  · simp only [List.length_append, List.length_singleton] at hk
    by_cases hlast : k = stored.length
    · subst hlast
      simp [hcell]
    · -- fewer than `N` apart, so in another cell
      have hlt : k < stored.length := by omega
      have hne : Fin.ofNat N k ≠ cell N nwrite := by
        intro heq
        rw [hcell] at heq
        have hmod : k % N = stored.length % N := congrArg Fin.val heq
        have hdvd : N ∣ stored.length - k := (Nat.modEq_iff_dvd' hlt.le).mp hmod
        have hle := Nat.le_of_dvd (by omega) hdvd
        omega
      rw [Function.update_of_ne hne, List.getElem_append_left hlt]
      exact h.data_eq k hlt hlo

theorem take (hN : N ∣ 2 ^ w) (hsome : stored.length ≠ taken.length) :
    Carries data (nread + 1) nwrite stored (taken ++ [data (cell N nread)]) := by
  have hlt : taken.length < stored.length := lt_of_le_of_ne h.length_le (Ne.symm hsome)
  have hbound := h.bound
  have hdata : data (cell N nread) = stored[taken.length] := by
    rw [h.nread_eq, cell_ofNat hN]
    exact h.data_eq _ hlt le_rfl
  have htaken : taken = stored.take taken.length := List.prefix_iff_eq_take.mp h.isPrefix
  have happ : taken ++ [stored[taken.length]] = stored.take (taken.length + 1) := by
    rw [← List.take_append_getElem hlt, ← htaken]
  refine ⟨?_, ?_, ?_, h.nwrite_eq, fun k hk hlo => ?_⟩
  · rw [hdata, happ]
    exact List.take_prefix _ _
  · simp only [List.length_append, List.length_singleton]
    omega
  · simp only [List.length_append, List.length_singleton, BitVec.ofNat_add, h.nread_eq]
    rfl
  · simp only [List.length_append, List.length_singleton] at hlo
    exact h.data_eq k hk (by omega)

end Carries

section Last

variable {b : α} (h : Carries data nread nwrite (stored ++ [b]) taken)
  (hlen : taken.length ≤ stored.length)
include h

theorem pred_nwrite : nwrite - 1 = BitVec.ofNat w stored.length := by
  rw [h.nwrite_eq, List.length_append, List.length_singleton, BitVec.ofNat_add]
  exact BitVec.add_sub_cancel _ _

include hlen

theorem last (hN : N ∣ 2 ^ w) : data (cell N (nwrite - 1)) = b := by
  rw [h.pred_nwrite, cell_ofNat hN, h.data_eq stored.length (by simp) hlen, List.getElem_concat_length]
  rfl

theorem unstore : Carries data nread (nwrite - 1) stored taken := by
  have hbound := h.bound
  simp only [List.length_append, List.length_singleton] at hbound
  refine ⟨?_, by omega, h.nread_eq, h.pred_nwrite, fun k hk hlo => ?_⟩
  · exact List.prefix_of_prefix_length_le h.isPrefix (List.prefix_append _ _) hlen
  · rw [h.data_eq k (by simp only [List.length_append, List.length_singleton]; omega) hlo,
      List.getElem_append_left hk]

end Last

end Carries

end

end Xv6Prng.WrapRing
