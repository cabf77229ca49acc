import Mathlib

/-!
# Counter mode

The stream of a block cipher run on the states of a counter: block `i` is the
encryption of the `i`-th successor of the counter the stream starts from. The cipher is
any function of a counter, the successor any map, so nothing here depends on how a
counter wraps.
-/

namespace Xv6Prng.CounterMode

section Blocks

variable {σ β : Type*} (enc : σ → β) (next : σ → σ)

def block (c : σ) (i : ℕ) : β := enc (next^[i] c)

def blocks (c : σ) (n : ℕ) : List β := (List.range n).map (block enc next c)

theorem block_iterate (c : σ) (m i : ℕ) :
    block enc next (next^[m] c) i = block enc next c (m + i) := by
  rw [block, block, ← Function.iterate_add_apply, Nat.add_comm]

theorem blocks_succ (c : σ) (n : ℕ) :
    blocks enc next c (n + 1) = blocks enc next c n ++ [block enc next c n] := by
  simp [blocks, List.range_succ]

end Blocks

section Bytes

variable {σ γ : Type*} {m : ℕ} [NeZero m] (enc : σ → Vector γ m) (next : σ → σ)

def byte (c : σ) (k : ℕ) : γ :=
  (block enc next c (k / m)).get ⟨k % m, Nat.mod_lt _ (NeZero.pos m)⟩

theorem byte_of_block (c : σ) (i : ℕ) (j : Fin m) :
    byte enc next c (m * i + j.val) = (block enc next c i).get j := by
  have hj := j.isLt
  have hdiv : (m * i + j.val) / m = i := by
    rw [Nat.mul_add_div (NeZero.pos m), Nat.div_eq_of_lt hj, Nat.add_zero]
  have hmod : (m * i + j.val) % m = j.val := by
    rw [Nat.mul_add_mod, Nat.mod_eq_of_lt hj]
  simp only [byte, hdiv, hmod]

theorem byte_iterate (c : σ) (i k : ℕ) :
    byte enc next (next^[i] c) k = byte enc next c (m * i + k) := by
  have hdiv : (m * i + k) / m = i + k / m := Nat.mul_add_div (NeZero.pos m) i k
  have hmod : (m * i + k) % m = k % m := Nat.mul_add_mod m i k
  simp only [byte, hdiv, hmod, block_iterate]

end Bytes
end Xv6Prng.CounterMode
