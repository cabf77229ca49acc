import Mathlib

/-!
# Singly linked queues

A queue is a pointer to its first node and, in each node, a pointer to the next one. A node is
appended by walking to the last one, and the first node is taken off by following its pointer.
`Represents q l` says that the pointers spell out exactly the nodes of `l`, without repetition,
so that the walk ends.
-/

namespace Xv6Prng

open Function

structure LinkedQueue (α : Type*) where
  head : Option α
  next : α → Option α

namespace LinkedQueue

variable {α : Type*}

def Spells (next : α → Option α) : Option α → List α → Prop
  | x, [] => x = none
  | x, a :: l => x = some a ∧ Spells next (next a) l

structure Represents (q : LinkedQueue α) (l : List α) : Prop where
  spells : Spells q.next q.head l
  nodup : l.Nodup

/-- The walk from `a` to the node whose pointer is null; nothing if it takes more than `fuel`
nodes. -/
def last (next : α → Option α) : ℕ → α → Option α
  | 0, _ => none
  | fuel + 1, a =>
    match next a with
    | none => some a
    | some b => last next fuel b

theorem Spells.congr {next next' : α → Option α} {x : Option α} {l : List α}
    (h : Spells next x l) (heq : ∀ a ∈ l, next' a = next a) : Spells next' x l := by
  induction l generalizing x with
  | nil => exact h
  | cons a l ih =>
    refine ⟨h.1, ?_⟩
    rw [heq a List.mem_cons_self]
    exact ih h.2 fun b hb => heq b (List.mem_cons_of_mem a hb)

theorem last_of_spells {next : α → Option α} {a b : α} {l : List α} {fuel : ℕ}
    (h : Spells next (some a) (l ++ [b])) (hfuel : l.length < fuel) :
    last next fuel a = some b := by
  induction l generalizing a fuel with
  | nil =>
    obtain ⟨hab, hnone⟩ := h
    obtain ⟨fuel, rfl⟩ := Nat.exists_eq_succ_of_ne_zero (Nat.ne_of_gt hfuel)
    cases hab
    rw [last, hnone]
  | cons c l ih =>
    obtain ⟨hac, hrest⟩ := h
    obtain ⟨fuel, rfl⟩ := Nat.exists_eq_succ_of_ne_zero (Nat.ne_of_gt (Nat.zero_lt_of_lt hfuel))
    cases hac
    have hnext : ∃ d, next c = some d := by
      cases l with
      | nil => exact ⟨b, hrest.1⟩
      | cons d l => exact ⟨d, hrest.1⟩
    obtain ⟨d, hd⟩ := hnext
    rw [last, hd]
    rw [hd] at hrest
    exact ih hrest (Nat.lt_of_succ_lt_succ hfuel)

variable [DecidableEq α] [Fintype α]

/-- The node's pointer is cleared, and the pointer at the end of the queue is set to the node.
Nothing is returned if the walk to the end does not stop. -/
def append (q : LinkedQueue α) (a : α) : Option (LinkedQueue α) :=
  let next := Function.update q.next a none
  match q.head with
  | none => some ⟨some a, next⟩
  | some b => (last next (Fintype.card α) b).map fun c => ⟨some b, Function.update next c (some a)⟩

def pop (q : LinkedQueue α) (a : α) : LinkedQueue α := { q with head := q.next a }

omit [DecidableEq α] [Fintype α]

namespace Represents

variable {q : LinkedQueue α} {l : List α} {a : α}

theorem empty (next : α → Option α) : Represents ⟨none, next⟩ [] := ⟨rfl, List.nodup_nil⟩

theorem head_eq (h : q.Represents l) : q.head = l.head? := by
  cases l with
  | nil => exact h.spells
  | cons a l => exact h.spells.1

theorem pop (h : q.Represents (a :: l)) : (q.pop a).Represents l :=
  ⟨h.spells.2, (List.nodup_cons.mp h.nodup).2⟩

end Represents

theorem Spells.snoc [DecidableEq α] {next : α → Option α} {x : Option α} {l : List α} {b a : α}
    (h : Spells next x (l ++ [b])) (hb : b ∉ l) (ha : next a = none) (hab : a ≠ b) :
    Spells (update next b (some a)) x (l ++ [b] ++ [a]) := by
  induction l generalizing x with
  | nil =>
    refine ⟨h.1, ?_, ?_⟩
    · rw [update_self]
    · rw [update_of_ne hab, ha]
      rfl
  | cons c l ih =>
    refine ⟨h.1, ?_⟩
    rw [update_of_ne (List.ne_of_not_mem_cons hb).symm]
    exact ih h.2 (List.not_mem_of_not_mem_cons hb)

theorem Represents.append [DecidableEq α] [Fintype α] {q : LinkedQueue α} {l : List α} {a : α}
    (h : q.Represents l) (ha : a ∉ l) :
    ∃ q', q.append a = some q' ∧ q'.Represents (l ++ [a]) := by
  have hnodup : (l ++ [a]).Nodup := List.nodup_append.mpr
    ⟨h.nodup, List.nodup_singleton a, by simpa using fun b hb => ne_of_mem_of_not_mem hb ha⟩
  -- Clearing the pointer of the new node changes nothing that the queue visits.
  have hspells : Spells (update q.next a none) q.head l :=
    h.spells.congr fun b hb => update_of_ne (ne_of_mem_of_not_mem hb ha) _ _
  rcases List.eq_nil_or_concat l with rfl | ⟨l, b, rfl⟩
  · refine ⟨⟨some a, update q.next a none⟩, ?_, ⟨rfl, update_self ..⟩, hnodup⟩
    rw [LinkedQueue.append, h.spells]
  · rw [List.concat_eq_append] at h ha hnodup hspells ⊢
    obtain ⟨c, hc⟩ : ∃ c, q.head = some c := by
      rw [h.head_eq]
      cases l with
      | nil => exact ⟨b, rfl⟩
      | cons c l => exact ⟨c, rfl⟩
    have hlast : last (update q.next a none) (Fintype.card α) c = some b := by
      rw [hc] at hspells
      refine last_of_spells hspells ?_
      have hcard := h.nodup.length_le_card
      rw [List.length_append, List.length_singleton] at hcard
      exact hcard
    refine ⟨⟨some c, update (update q.next a none) b (some a)⟩, ?_, ?_, hnodup⟩
    · simp only [LinkedQueue.append, hc, hlast, Option.map_some]
    · rw [hc] at hspells
      refine hspells.snoc ?_ (update_self ..) ?_
      · intro hb
        exact (List.nodup_append.mp h.nodup).2.2 b hb b (List.mem_singleton_self b) rfl
      · intro hab
        exact ha (hab ▸ by simp)

end LinkedQueue
end Xv6Prng
