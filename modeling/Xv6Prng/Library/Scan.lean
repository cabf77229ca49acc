import Mathlib

/-!
# Scanning a list by position

A loop that moves a pointer over a string, against the suffix of the list that the pointer
stands for: what the loop passes is `takeWhile` and what it leaves is `dropWhile`. A string in a
memory ends before the first terminator.
-/

namespace Xv6Prng.Scan

variable {α : Type*} (xs : List α) (p : α → Bool)

def advance : ℕ → ℕ → ℕ
  | 0, s => s
  | k + 1, s => if (xs[s]?).any p then advance k (s + 1) else s

theorem advance_eq {k s : ℕ} (h : xs.length ≤ s + k) :
    advance xs p k s = s + ((xs.drop s).takeWhile p).length := by
  induction k generalizing s with
  | zero =>
    rw [List.drop_eq_nil_of_le (by omega)]
    rfl
  | succ k ih =>
    rw [advance]
    by_cases hs : s < xs.length
    · rw [List.getElem?_eq_getElem hs, Option.any_some, List.drop_eq_getElem_cons hs,
        List.takeWhile_cons]
      split_ifs
      · rw [ih (by omega), List.length_cons]
        omega
      · rfl
    · rw [List.getElem?_eq_none (by omega), List.drop_eq_nil_of_le (by omega)]
      rfl

theorem drop_takeWhile (l : List α) : l.drop (l.takeWhile p).length = l.dropWhile p := by
  induction l with
  | nil => rfl
  | cons c l ih =>
    by_cases hc : p c
    · rw [List.takeWhile_cons_of_pos hc, List.dropWhile_cons_of_pos hc, List.length_cons,
        List.drop_succ_cons, ih]
    · rw [List.takeWhile_cons_of_neg hc, List.dropWhile_cons_of_neg hc]
      rfl

theorem drop_advance {k s : ℕ} (h : xs.length ≤ s + k) :
    xs.drop (advance xs p k s) = (xs.drop s).dropWhile p := by
  rw [advance_eq xs p h, ← List.drop_drop, drop_takeWhile]

theorem advance_le {k s : ℕ} (h : xs.length ≤ s + k) (hs : s ≤ xs.length) :
    advance xs p k s ≤ xs.length := by
  rw [advance_eq xs p h]
  have hlen := (List.takeWhile_prefix p (l := xs.drop s)).length_le
  rw [List.length_drop] at hlen
  omega

def stringAt [DecidableEq α] (z : α) (m : List α) (q : ℕ) : List α :=
  (m.drop q).takeWhile fun c => c ≠ z

theorem stringAt_eq [DecidableEq α] {z : α} {m w rest : List α} {q : ℕ}
    (h : m.drop q = w ++ z :: rest) (hz : z ∉ w) : stringAt z m q = w := by
  rw [stringAt, h, List.takeWhile_append_of_pos]
  · simp
  · intro c hc
    have hne : c ≠ z := fun heq => hz (heq ▸ hc)
    simpa using hne

end Xv6Prng.Scan
