import Mathlib

/-!
# Ownership traces

A trace records what is taken from an allocator and what is given back. `Owned` says that
everything given back is owned at that moment, `Balanced` that moreover nothing is owned
at the end. `replay` checks both by running the set of owned items along the trace;
`owned_of_replay` and `balanced_of_replay` say that the check is sound.
-/

namespace Xv6Prng.Ownership

inductive Event (α : Type*)
  | take (a : α)
  | give (a : α)
  deriving DecidableEq

variable {α : Type*} [DecidableEq α]

def takes (a : α) (t : List (Event α)) : ℕ := t.countP (fun e => decide (e = .take a))
def gives (a : α) (t : List (Event α)) : ℕ := t.countP (fun e => decide (e = .give a))

structure Owned (t : List (Event α)) : Prop where
  /-- What is given back was taken before and has not been given back since. -/
  give_owned : ∀ (before : List (Event α)) (a : α), before ++ [.give a] <+: t →
    takes a before = gives a before + 1
  take_fresh : ∀ (before : List (Event α)) (a : α), before ++ [.take a] <+: t →
    takes a before = gives a before

structure Balanced (t : List (Event α)) : Prop extends Owned t where
  settled : ∀ a, takes a t = gives a t

def replay : List α → List (Event α) → Option (List α)
  | owned, [] => some owned
  | owned, .take a :: t => if a ∈ owned then none else replay (a :: owned) t
  | owned, .give a :: t => if a ∈ owned then replay (owned.erase a) t else none

theorem replay_append (owned : List α) (t u : List (Event α)) :
    replay owned (t ++ u) = (replay owned t).bind fun o => replay o u := by
  induction t generalizing owned with
  | nil => rfl
  | cons e t ih =>
    cases e with
    | take a => simp only [List.cons_append, replay]; split_ifs <;> simp [ih]
    | give a => simp only [List.cons_append, replay]; split_ifs <;> simp [ih]

variable {t : List (Event α)}

theorem replay_count {owned o : List α} (hn : owned.Nodup) (h : replay owned t = some o) :
    o.Nodup ∧ ∀ a, owned.count a + takes a t = o.count a + gives a t := by
  induction t generalizing owned with
  | nil =>
    obtain rfl : owned = o := by simpa [replay] using h
    exact ⟨hn, fun a => rfl⟩
  | cons e t ih =>
    cases e with
    | take b =>
      simp only [replay] at h
      split_ifs at h with hb
      obtain ⟨ho, hc⟩ := ih (List.nodup_cons.mpr ⟨hb, hn⟩) h
      refine ⟨ho, fun a => ?_⟩
      have hca := hc a
      simp only [takes, gives, List.countP_cons, List.count_cons] at hca ⊢
      by_cases hab : b = a
      · simp_all
        omega
      · simp_all
    | give b =>
      simp only [replay] at h
      split_ifs at h with hb
      obtain ⟨ho, hc⟩ := ih (hn.erase b) h
      refine ⟨ho, fun a => ?_⟩
      have hca := hc a
      simp only [takes, gives, List.countP_cons] at hca ⊢
      by_cases hab : b = a
      · subst hab
        have hpos := List.count_pos_iff.mpr hb
        rw [List.count_erase_self] at hca
        simp at hca ⊢
        omega
      · rw [List.count_erase_of_ne (Ne.symm hab)] at hca
        simp [hab] at hca ⊢
        omega

theorem replay_prefix {o : List α} {before : List (Event α)} {e : Event α}
    (h : replay [] t = some o) (hp : before ++ [e] <+: t) :
    ∃ mid after, replay [] before = some mid ∧ replay mid [e] = some after := by
  obtain ⟨rest, rfl⟩ := hp
  rw [replay_append, replay_append] at h
  cases hm : replay [] before with
  | none => simp [hm] at h
  | some mid =>
    cases ha : replay mid [e] with
    | none => simp [hm, ha] at h
    | some after => exact ⟨mid, after, rfl, ha⟩

theorem owned_of_replay {o : List α} (h : replay [] t = some o) : Owned t  where
  give_owned before a hp := by
    obtain ⟨mid, after, hm, ha⟩ := replay_prefix h hp
    obtain ⟨hmid, hc⟩ := replay_count List.nodup_nil hm
    have hmem : a ∈ mid := by
      by_contra hn
      simp [replay, hn] at ha
    have hca := hc a
    rw [List.count_nil, List.count_eq_one_of_mem hmid hmem] at hca
    omega
  take_fresh before a hp := by
    obtain ⟨mid, after, hm, ha⟩ := replay_prefix h hp
    have hc := (replay_count List.nodup_nil hm).2 a
    have hmem : a ∉ mid := by
      intro hn
      simp [replay, hn] at ha
    rw [List.count_nil, List.count_eq_zero_of_not_mem hmem] at hc
    omega

theorem balanced_of_replay (h : replay [] t = some []) : Balanced t  where
  toOwned := owned_of_replay h
  settled a := by
    have hc := (replay_count List.nodup_nil h).2 a
    simpa using hc

end Xv6Prng.Ownership
