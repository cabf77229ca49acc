import Mathlib

/-!
# Lock orders

What a thread of control does with locks is a list of steps: it takes a lock, gives one
back, or parks and hands the processor and the locks it holds to another thread. `Orderly`
goes through such a list with the locks held so far and asks that each lock is taken where
it may be. If every processor that waits for a lock holds only locks of lower rank, no set of
processors is deadlocked.
-/

namespace LockOrder

variable {C L : Type*}

inductive Op (L : Type*)
  | acquire (l : L)
  | release (l : L)
  | park
  deriving DecidableEq

def holding (l : L) (ops : List (Op L)) : List (Op L) := .acquire l :: (ops ++ [.release l])

section Orderly

variable [DecidableEq L]

/-- The steps lead from the locks `hl` to the locks `hl'`; every lock is taken where `may`
allows it, and a thread parks with exactly the locks `parked`. -/
inductive Orderly (may : List L → L → Prop) (parked : List L) :
    List L → List (Op L) → List L → Prop
  | nil {hl : List L} : Orderly may parked hl [] hl
  | acquire {hl hl' : List L} {l : L} {ops : List (Op L)} :
      may hl l → Orderly may parked (l :: hl) ops hl' →
      Orderly may parked hl (.acquire l :: ops) hl'
  | release {hl hl' : List L} {l : L} {ops : List (Op L)} :
      l ∈ hl → Orderly may parked (hl.erase l) ops hl' →
      Orderly may parked hl (.release l :: ops) hl'
  | park {hl' : List L} {ops : List (Op L)} :
      Orderly may parked parked ops hl' → Orderly may parked parked (.park :: ops) hl'

variable {may : List L → L → Prop} {parked hl hl' hl'' : List L} {xs ys : List (Op L)}

theorem orderly_acquire {l : L} :
    Orderly may parked hl (.acquire l :: xs) hl' ↔
      may hl l ∧ Orderly may parked (l :: hl) xs hl' := by
  constructor
  · intro h
    cases h with
    | acquire hmay h => exact ⟨hmay, h⟩
  · rintro ⟨hmay, h⟩
    exact .acquire hmay h

theorem orderly_release {l : L} :
    Orderly may parked hl (.release l :: xs) hl' ↔
      l ∈ hl ∧ Orderly may parked (hl.erase l) xs hl' := by
  constructor
  · intro h
    cases h with
    | release hmem h => exact ⟨hmem, h⟩
  · rintro ⟨hmem, h⟩
    exact .release hmem h

theorem orderly_park :
    Orderly may parked hl (.park :: xs) hl' ↔ hl = parked ∧ Orderly may parked parked xs hl' := by
  constructor
  · intro h
    cases h with
    | park h => exact ⟨rfl, h⟩
  · rintro ⟨rfl, h⟩
    exact .park h

theorem Orderly.append (hx : Orderly may parked hl xs hl') (hy : Orderly may parked hl' ys hl'') :
    Orderly may parked hl (xs ++ ys) hl'' := by
  induction hx with
  | nil => exact hy
  | acquire hmay _ ih => exact .acquire hmay (ih hy)
  | release hmem _ ih => exact .release hmem (ih hy)
  | park _ ih => exact .park (ih hy)

theorem Orderly.holding {l : L} (hmay : may hl l) (h : Orderly may parked (l :: hl) xs (l :: hl)) :
    Orderly may parked hl (holding l xs) hl := by
  refine .acquire hmay (h.append (.release List.mem_cons_self ?_))
  rw [List.erase_cons_head]
  exact .nil

theorem Orderly.flatMap {β : Type*} {f : β → List (Op L)}
    (h : ∀ x, Orderly may parked hl (f x) hl) (as : List β) :
    Orderly may parked hl (as.flatMap f) hl := by
  induction as with
  | nil => exact .nil
  | cons a as ih => exact (h a).append ih

theorem Orderly.repeated (h : Orderly may parked hl xs hl) (n : ℕ) :
    Orderly may parked hl (List.replicate n xs).flatten hl := by
  induction n with
  | zero => exact .nil
  | succ n ih => exact h.append ih

end Orderly

variable (held : C → List L) (waits : C → Option L)

def Deadlocked : Prop :=
  ∃ S : Finset C, S.Nonempty ∧
    ∀ c ∈ S, held c ≠ [] ∧ ∃ l, waits c = some l ∧ ∃ d ∈ S, d ≠ c ∧ l ∈ held d

variable {held waits}

theorem not_deadlocked_of_rank (rank : L → ℕ)
    (h : ∀ c l, waits c = some l → ∀ k ∈ held c, rank k < rank l) :
    ¬ Deadlocked held waits := by
  rintro ⟨S, hS, hall⟩
  -- the processor that waits for a lock of the highest rank waits for one that waits higher
  obtain ⟨c, hc, hmax⟩ := S.exists_max_image (fun c => (waits c).elim 0 rank) hS
  obtain ⟨-, l, hl, d, hd, -, hheld⟩ := hall c hc
  obtain ⟨-, l', hl', -⟩ := hall d hd
  have hlt : rank l < rank l' := h d l' hl' l hheld
  have hle : rank l' ≤ rank l := by simpa [hl, hl'] using hmax d hd
  exact absurd hlt (Nat.not_lt.mpr hle)

end LockOrder
