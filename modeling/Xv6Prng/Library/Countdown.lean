import Mathlib

/-!
# Iterating a map that counts down to a reset

`Countdown f dist z` says that every application of `f` brings a state one step
closer to the reset state `z`, as measured by `dist`, until the state at distance
one is sent to `z`. No state is further away than `z` itself, so `dist z` is the
period of the orbit of `z` and a lower bound for the first repetition from any state.
-/

namespace Xv6Prng

open Function

structure Countdown {α : Type*} (f : α → α) (dist : α → ℕ) (z : α) : Prop where
  dist_pos : ∀ x, 0 < dist x
  dist_step : ∀ x, 1 < dist x → dist (f x) + 1 = dist x
  reset : ∀ x, dist x = 1 → f x = z
  dist_le : ∀ x, dist x ≤ dist z

namespace Countdown

variable {α : Type*} {f : α → α} {dist : α → ℕ} {z : α}

variable (h : Countdown f dist z)
include h

theorem dist_iterate (x : α) {n : ℕ} (hn : n < dist x) : dist (f^[n] x) + n = dist x := by
  induction n with
  | zero => rfl
  | succ n ih =>
    have hprev := ih (by omega)
    have hstep := h.dist_step (f^[n] x) (by omega)
    rw [iterate_succ_apply']
    omega

theorem iterate_dist (x : α) : f^[dist x] x = z := by
  obtain ⟨n, hn⟩ : ∃ n, dist x = n + 1 := ⟨dist x - 1, by have := h.dist_pos x; omega⟩
  have hlast := h.dist_iterate x (n := n) (by omega)
  rw [hn, iterate_succ_apply']
  exact h.reset _ (by omega)

theorem iterate_dist_add (x : α) (n : ℕ) : f^[n + dist x] x = f^[n] z := by
  rw [iterate_add_apply, h.iterate_dist]

theorem iterate_ne_self (x : α) {n : ℕ} (hpos : 0 < n) (hn : n < dist z) : f^[n] x ≠ x := by
  intro he
  by_cases hlt : n < dist x
  · have hd := h.dist_iterate x hlt
    rw [he] at hd
    omega
  · have hx := h.dist_pos x
    have hsplit := h.iterate_dist_add x (n - dist x)
    rw [Nat.sub_add_cancel (by omega), he] at hsplit
    have hd := h.dist_iterate z (n := n - dist x) (by omega)
    rw [← hsplit] at hd
    omega

theorem iterate_ne (x : α) {m n : ℕ} (hmn : m < n) (hn : n < m + dist z) : f^[n] x ≠ f^[m] x := by
  rw [show n = (n - m) + m by omega, iterate_add_apply]
  exact h.iterate_ne_self _ (by omega) (by omega)

theorem iterate_eq_reset_iff (n : ℕ) : f^[n] z = z ↔ dist z ∣ n := by
  constructor
  · intro he
    by_contra hd
    have hz := h.dist_pos z
    have hr : 0 < n % dist z := Nat.pos_of_ne_zero fun h0 => hd (Nat.dvd_of_mod_eq_zero h0)
    refine h.iterate_ne_self z hr (Nat.mod_lt _ hz) ?_
    rwa [← Nat.mod_add_div n (dist z), iterate_add_apply, iterate_mul,
      iterate_fixed (h.iterate_dist z)] at he
  · rintro ⟨k, rfl⟩
    rw [iterate_mul, iterate_fixed (h.iterate_dist z)]

end Countdown
end Xv6Prng
