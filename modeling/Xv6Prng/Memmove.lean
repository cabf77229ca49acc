import Xv6Prng.Library.ByteWords

/-!
# The two `memmove`s

The kernel's `memmove` (`string.c`) copies downwards if the destination begins inside the source.
The one of the user library (`ulib.c`) always copies upwards, so that it repeats the first bytes
of the source in that case.

An address is a number below `2 ^ 32`, and the ranges do not wrap around.
-/

namespace Xv6Prng.Memmove

open Function

abbrev Mem := ℕ → Byte

/-- `while(n-- > 0) *d++ = *s++` -/
def copyUp : ℕ → Mem → ℕ → ℕ → Mem
  | 0, mem, _, _ => mem
  | n + 1, mem, d, s => copyUp n (Function.update mem d (mem s)) (d + 1) (s + 1)

/-- `while(n-- > 0) *--d = *--s` -/
def copyDown : ℕ → Mem → ℕ → ℕ → Mem
  | 0, mem, _, _ => mem
  | n + 1, mem, d, s => copyDown n (Function.update mem (d - 1) (mem (s - 1))) (d - 1) (s - 1)

def ulibMemmove (mem : Mem) (dst src n : ℕ) : Mem := copyUp n mem dst src

def kernelMemmove (mem : Mem) (dst src n : ℕ) : Mem :=
  if src < dst ∧ (src + n) % 2 ^ 32 > dst then copyDown n mem (dst + n) (src + n)
  else copyUp n mem dst src

def placed (mem : Mem) (dst n : ℕ) (f : ℕ → ℕ) : Mem := fun a =>
  if dst ≤ a ∧ a < dst + n then mem (f (a - dst)) else mem a

def moved (mem : Mem) (dst src n : ℕ) : Mem := placed mem dst n fun i => src + i

variable {mem : Mem} {dst src n : ℕ} {f g : ℕ → ℕ}

theorem placed_of_not {a : ℕ} (h : ¬ (dst ≤ a ∧ a < dst + n)) : placed mem dst n f a = mem a :=
  if_neg h

theorem placed_add {i : ℕ} (hi : i < n) : placed mem dst n f (dst + i) = mem (f i) := by
  rw [placed, if_pos (by omega), Nat.add_sub_cancel_left]

theorem placed_inj : placed mem dst n f = placed mem dst n g ↔ ∀ i < n, mem (f i) = mem (g i) := by
  constructor
  · intro h i hi
    have hbyte := congrFun h (dst + i)
    rwa [placed_add hi, placed_add hi] at hbyte
  · intro h
    funext a
    by_cases ha : dst ≤ a ∧ a < dst + n
    · obtain ⟨i, rfl⟩ := Nat.exists_eq_add_of_le ha.1
      rw [placed_add (by omega), placed_add (by omega), h i (by omega)]
    · rw [placed_of_not ha, placed_of_not ha]

theorem placed_succ (mem : Mem) (dst n : ℕ) (f : ℕ → ℕ) :
    placed mem dst (n + 1) f = update (placed mem dst n f) (dst + n) (mem (f n)) := by
  funext a
  by_cases ha : a = dst + n
  · rw [ha, update_self, placed_add (Nat.lt_succ_self n)]
  · have hrange : dst ≤ a ∧ a < dst + (n + 1) ↔ dst ≤ a ∧ a < dst + n := by omega
    simp only [placed, update_of_ne ha, hrange]

theorem copyUp_succ (n : ℕ) (mem : Mem) (d s : ℕ) :
    copyUp (n + 1) mem d s = update (copyUp n mem d s) (d + n) (copyUp n mem d s (s + n)) := by
  induction n generalizing mem d s with
  | zero => rfl
  | succ n ih =>
    rw [copyUp, ih, copyUp, Nat.add_right_comm d 1 n, Nat.add_right_comm s 1 n]
    rfl

theorem copyUp_eq (hread : ∀ k < n, placed mem dst k f (src + k) = mem (f k)) :
    copyUp n mem dst src = placed mem dst n f := by
  induction n with
  | zero =>
    funext a
    rw [copyUp, placed_of_not (by omega)]
  | succ n ih =>
    rw [copyUp_succ, ih fun k hk => hread k (by omega), hread n (Nat.lt_succ_self n), placed_succ]

theorem copyUp_of_le (h : dst ≤ src) : copyUp n mem dst src = moved mem dst src n :=
  copyUp_eq fun k _ => placed_of_not (by omega)

theorem copyUp_of_lt (h : src < dst) :
    copyUp n mem dst src = placed mem dst n fun i => src + i % (dst - src) := by
  refine copyUp_eq fun k _ => ?_
  by_cases hk : k < dst - src
  · rw [placed_of_not (by omega), Nat.mod_eq_of_lt hk]
  · rw [show src + k = dst + (k - (dst - src)) by omega, placed_add (by omega),
      ← Nat.mod_eq_sub_mod (not_lt.mp hk)]

theorem copyDown_of_le (h : src ≤ dst) :
    copyDown n mem (dst + n) (src + n) = moved mem dst src n := by
  induction n generalizing mem with
  | zero =>
    funext a
    rw [copyDown, moved, placed_of_not (by omega)]
  | succ n ih =>
    show copyDown n (update mem (dst + n) (mem (src + n))) (dst + n) (src + n) = _
    rw [ih, moved, moved, placed_succ]
    funext a
    -- what is still to be read lies below what has been written
    by_cases hin : dst ≤ a ∧ a < dst + n
    · obtain ⟨i, rfl⟩ := Nat.exists_eq_add_of_le hin.1
      rw [placed_add (by omega), update_of_ne (by omega), update_of_ne (by omega),
        placed_add (by omega)]
    · by_cases ha : a = dst + n
      · rw [placed_of_not hin, ha, update_self, update_self]
      · rw [placed_of_not hin, update_of_ne ha, update_of_ne ha, placed_of_not hin]

theorem kernelMemmove_eq (hdst : dst + n ≤ 2 ^ 32) :
    kernelMemmove mem dst src n = moved mem dst src n := by
  rw [kernelMemmove]
  split_ifs with h
  · exact copyDown_of_le h.1.le
  · by_cases hlt : src < dst
    · -- the end of the source does not wrap, since that of the destination does not
      rw [copyUp_of_lt hlt, moved, placed_inj]
      intro i hi
      rw [Nat.mod_eq_of_lt (by omega)]
    · exact copyUp_of_le (not_lt.mp hlt)

theorem memmove_iff (mem : Mem) {dst src n : ℕ} (hdst : dst + n ≤ 2 ^ 32)
    (_hsrc : src + n ≤ 2 ^ 32) :
    (kernelMemmove mem dst src n = moved mem dst src n ∧
      ulibMemmove mem dst src n = moved mem dst src n) ↔
      dst ≤ src ∨ ∀ i < n, mem (src + i % (dst - src)) = mem (src + i) := by
  rw [and_iff_right (kernelMemmove_eq hdst), ulibMemmove]
  rcases Nat.lt_or_ge src dst with hlt | hge
  · rw [or_iff_right (not_le.mpr hlt), copyUp_of_lt hlt, moved, placed_inj]
  · exact iff_of_true (copyUp_of_le hge) (Or.inl hge)

def threeBytes : Mem := fun a => BitVec.ofNat 8 (a + 1)

theorem memmove_iff_threeBytes :
    kernelMemmove threeBytes 0 1 3 = moved threeBytes 0 1 3 ∧
      ulibMemmove threeBytes 0 1 3 = moved threeBytes 0 1 3 :=
  (memmove_iff threeBytes (by decide) (by decide)).mpr (Or.inl (by decide))

theorem not_memmove :
    ulibMemmove threeBytes 1 0 3 2 = 1 ∧ kernelMemmove threeBytes 1 0 3 2 = 2 ∧
      moved threeBytes 1 0 3 2 = 2 ∧
      ulibMemmove threeBytes 1 0 3 ≠ moved threeBytes 1 0 3 := by
  refine ⟨by decide, by decide, by decide, fun h => ?_⟩
  exact absurd (congrFun h 2) (by decide)

end Xv6Prng.Memmove
