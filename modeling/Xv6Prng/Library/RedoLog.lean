import Mathlib

/-!
# Redo logs

A disk maps addresses to blocks. A redo log keeps, at a header address, a list of home
addresses and, in numbered slots, a block for each of them. `replay d` is the disk that
`d` stands for: the blocks of the log are written home, in order. Writing some of them
home does not change what the disk stands for, so an interrupted replay can be repeated.
-/

namespace RedoLog

open Function

variable {A B : Type*} [DecidableEq A]

def install (d : A → B) (entries : List (A × B)) : A → B :=
  entries.foldl (fun d e => Function.update d e.1 e.2) d

theorem install_nil (d : A → B) : install d [] = d := rfl

theorem install_concat (d : A → B) (entries : List (A × B)) (e : A × B) :
    install d (entries ++ [e]) = update (install d entries) e.1 e.2 := by
  rw [install, List.foldl_append]
  rfl

theorem install_of_notMem {entries : List (A × B)} {a : A} (h : a ∉ entries.map Prod.fst)
    (d : A → B) : install d entries a = d a := by
  induction entries using List.reverseRecOn with
  | nil => rfl
  | append_singleton entries e ih =>
    rw [List.map_append, List.mem_append, not_or] at h
    rw [install_concat, update_of_ne (by simpa using h.2), ih h.1]

theorem install_congr {entries : List (A × B)} {a : A} {c d : A → B}
    (h : a ∈ entries.map Prod.fst ∨ c a = d a) : install c entries a = install d entries a := by
  induction entries using List.reverseRecOn with
  | nil => exact h.resolve_left List.not_mem_nil
  | append_singleton entries e ih =>
    rw [install_concat, install_concat]
    by_cases ha : a = e.1
    · rw [ha, update_self, update_self]
    · rw [update_of_ne ha, update_of_ne ha]
      refine ih (h.imp_left fun hm => ?_)
      rw [List.map_append, List.mem_append] at hm
      exact hm.resolve_right (by simpa using ha)

theorem install_take {entries : List (A × B)} (d : A → B) (n : ℕ) :
    install (install d (entries.take n)) entries = install d entries := by
  funext x
  apply install_congr
  by_cases hx : x ∈ entries.map Prod.fst
  · exact Or.inl hx
  · refine Or.inr (install_of_notMem (fun hm => hx ?_) d)
    rw [List.map_take] at hm
    exact List.mem_of_mem_take hm

theorem install_take_succ {entries : List (A × B)} (d : A → B) {n : ℕ} (h : n < entries.length) :
    install d (entries.take (n + 1)) =
      update (install d (entries.take n)) (entries[n]).1 (entries[n]).2 := by
  rw [← List.take_append_getElem h, install_concat]

theorem install_eq {entries : List (A × B)} {c d : A → B} {a : A}
    (hentries : ∀ e ∈ entries, e.2 = c e.1) (hrest : a ∉ entries.map Prod.fst → d a = c a) :
    install d entries a = c a := by
  induction entries using List.reverseRecOn with
  | nil => exact hrest List.not_mem_nil
  | append_singleton entries e ih =>
    rw [install_concat]
    by_cases ha : a = e.1
    · rw [ha, update_self]
      exact hentries e (by simp)
    · rw [update_of_ne ha]
      refine ih (fun e' he' => hentries e' (by simp [he'])) fun hm => hrest ?_
      rw [List.map_append, List.mem_append, not_or]
      exact ⟨hm, by simpa using ha⟩

structure Format (A B : Type*) where
  header : A
  slot : ℕ → A
  decode : B → List A

namespace Format

variable (F : Format A B) (d : A → B)

def entries : List (A × B) :=
  (F.decode (d F.header)).mapIdx fun i a => (a, d (F.slot i))

def replay : A → B := install d (F.entries d)

omit [DecidableEq A] in
theorem map_fst_entries : (F.entries d).map Prod.fst = F.decode (d F.header) := by
  apply List.ext_getElem
  · simp [entries]
  · intro i h₁ h₂
    simp [entries]

def Apart : Prop :=
  ∀ a ∈ F.decode (d F.header), a ≠ F.header ∧ ∀ i < (F.decode (d F.header)).length, a ≠ F.slot i

omit [DecidableEq A] in
theorem notMem_take {a : A} {n : ℕ} (h : a ∉ F.decode (d F.header)) :
    a ∉ ((F.entries d).take n).map Prod.fst := by
  rw [List.map_take, map_fst_entries]
  exact fun hm => h (List.mem_of_mem_take hm)

theorem entries_install_take (h : F.Apart d) (n : ℕ) :
    F.entries (install d ((F.entries d).take n)) = F.entries d := by
  have hheader : F.header ∉ F.decode (d F.header) := fun hm => (h _ hm).1 rfl
  rw [entries, install_of_notMem (F.notMem_take d hheader)]
  apply List.ext_getElem
  · simp [entries]
  · intro i h₁ h₂
    have hi : i < (F.decode (d F.header)).length := by simpa using h₁
    have hslot : F.slot i ∉ F.decode (d F.header) := fun hm => (h _ hm).2 i hi rfl
    simp only [List.getElem_mapIdx, install_of_notMem (F.notMem_take d hslot)]
    simp [entries]

theorem replay_of_empty (h : F.decode (d F.header) = []) : F.replay d = d := by
  rw [replay, entries, h]
  rfl

theorem replay_install_take (h : F.Apart d) (n : ℕ) :
    F.replay (install d ((F.entries d).take n)) = F.replay d := by
  rw [replay, entries_install_take F d h, install_take, replay]

theorem replay_commit {h : B} {c : A → B} {a : A}
    (hslots : ∀ i (hi : i < (F.decode h).length), F.slot i ≠ F.header ∧
      d (F.slot i) = c ((F.decode h)[i]))
    (ha : a ≠ F.header) (hrest : a ∉ F.decode h → d a = c a) :
    F.replay (update d F.header h) a = c a := by
  apply install_eq
  · intro e he
    rw [entries, update_self] at he
    obtain ⟨i, hi, rfl⟩ := List.mem_mapIdx.mp he
    rw [update_of_ne (hslots i hi).1]
    exact (hslots i hi).2
  · rw [map_fst_entries, update_self, update_of_ne ha]
    exact hrest

end Format

end RedoLog
