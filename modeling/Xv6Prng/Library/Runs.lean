import Mathlib

/-!
# Runs of a deterministic system

A system is a state and a total function that takes one action. A run is a list of
actions, whoever takes them, so that a statement about every run is one about every
interleaving. `Along P` says that each action of a run is taken in a state where `P`
allows it. The rules carry an invariant along a run and turn a fact about one action
into a fact about all of them.
-/

namespace Xv6Prng.Runs

open Function

variable {σ α : Type*} (step : σ → α → σ)

def run (s : σ) (acts : List α) : σ := acts.foldl step s

def Along (P : σ → α → Prop) : σ → List α → Prop
  | _, [] => True
  | s, a :: acts => P s a ∧ Along P (step s a) acts

instance (P : σ → α → Prop) [∀ s a, Decidable (P s a)] :
    ∀ s acts, Decidable (Along step P s acts)
  | _, [] => inferInstanceAs (Decidable True)
  | s, a :: acts =>
    have := instDecidableAlong P (step s a) acts
    inferInstanceAs (Decidable (P s a ∧ Along step P (step s a) acts))

variable {step} {P Q : σ → α → Prop} {I : σ → Prop} {s : σ} {acts : List α}

@[simp] theorem run_nil : run step s [] = s := rfl

@[simp] theorem run_cons (a : α) : run step s (a :: acts) = run step (step s a) acts := rfl

theorem run_append (xs ys : List α) : run step s (xs ++ ys) = run step (run step s xs) ys :=
  List.foldl_append

theorem along_append (xs ys : List α) :
    Along step P s (xs ++ ys) ↔ Along step P s xs ∧ Along step P (run step s xs) ys := by
  induction xs generalizing s with
  | nil => simp [Along]
  | cons a xs ih => simp [Along, ih, and_assoc]

theorem along_singleton (a : α) : Along step P s [a] ↔ P s a := by simp [Along]

theorem Along.invariant (h : Along step P s acts) (h0 : I s)
    (hstep : ∀ s a, I s → P s a → I (step s a)) : I (run step s acts) := by
  induction acts generalizing s with
  | nil => exact h0
  | cons a acts ih => exact ih h.2 (hstep s a h0 h.1)

theorem run_invariant (h0 : I s) (hstep : ∀ s a, I s → I (step s a)) :
    I (run step s acts) := by
  induction acts generalizing s with
  | nil => exact h0
  | cons a acts ih => exact ih (hstep s a h0)

variable (step) in
def Always (I : σ → Prop) (s : σ) (acts : List α) : Prop :=
  ∀ pre, pre <+: acts → I (run step s pre)

theorem Along.always {N : σ → Prop} (h : Along step P s acts) (h0 : I s)
    (hstep : ∀ s a, I s → P s a → I (step s a)) (hN : ∀ s, I s → N s) :
    Always step N s acts := by
  rintro pre ⟨rest, rfl⟩
  exact hN _ (((along_append pre rest).mp h).1.invariant h0 hstep)

theorem Along.imp (h : Along step P s acts) (h0 : I s)
    (hstep : ∀ s a, I s → P s a → I (step s a)) (hPQ : ∀ s a, I s → P s a → Q s a) :
    Along step Q s acts := by
  induction acts generalizing s with
  | nil => trivial
  | cons a acts ih => exact ⟨hPQ s a h0 h.1, ih h.2 (hstep s a h0 h.1)⟩

theorem along_congr (h0 : I s) (hstep : ∀ s a, I s → I (step s a))
    (hPQ : ∀ s a, I s → (P s a ↔ Q s a)) : Along step P s acts ↔ Along step Q s acts := by
  induction acts generalizing s with
  | nil => exact Iff.rfl
  | cons a acts ih => exact and_congr (hPQ s a h0) (ih (hstep s a h0))

/-- A property of states that each action decides: it survives a run exactly when every
action of the run lets it. The bound `B` need only hold at the end. -/
theorem iff_along {N B : σ → Prop} (h0 : I s) (hstep : ∀ s a, I s → I (step s a))
    (hB : ∀ s a, B (step s a) → B s)
    (hN : ∀ s a, I s → B (step s a) → (N (step s a) ↔ N s ∧ P s a))
    (hend : B (run step s acts)) : N (run step s acts) ↔ N s ∧ Along step P s acts := by
  induction acts using List.reverseRecOn with
  | nil => simp [Along]
  | append_singleton acts a ih =>
    rw [run_append, run_cons, run_nil] at hend ⊢
    rw [hN _ a (run_invariant h0 hstep) hend, ih (hB _ a hend), along_append, along_singleton,
      and_assoc]

theorem sum_update_add {ι β γ : Type*} [DecidableEq ι] [AddCommMonoid γ] (f : β → γ) (g : ι → β)
    {t : Finset ι} {p : ι} (hp : p ∈ t) (x : β) :
    ∑ q ∈ t, f (update g p x q) + f (g p) = ∑ q ∈ t, f (g q) + f x := by
  have hrest : ∑ q ∈ t.erase p, f (update g p x q) = ∑ q ∈ t.erase p, f (g q) :=
    Finset.sum_congr rfl fun q hq => by rw [update_of_ne (Finset.ne_of_mem_erase hq)]
  rw [← Finset.add_sum_erase t (fun q => f (update g p x q)) hp,
    ← Finset.add_sum_erase t (fun q => f (g q)) hp, hrest, update_self]
  abel

theorem sum_update {ι β : Type*} [Fintype ι] [DecidableEq ι] (f : β → ℕ) (g : ι → β) (p : ι)
    (x : β) : ∑ q, f (update g p x q) + f (g p) = ∑ q, f (g q) + f x :=
  sum_update_add f g (Finset.mem_univ p) x

theorem le_sum {ι β : Type*} [Fintype ι] (f : β → ℕ) (g : ι → β) (p : ι) : f (g p) ≤ ∑ q, f (g q) :=
  Finset.single_le_sum (f := fun q => f (g q)) (fun _ _ => Nat.zero_le _) (Finset.mem_univ p)

end Xv6Prng.Runs
