import Mathlib

/-!
# Tables of slots

A table has slots, and a slot is empty or holds a key with a value. If no key is in two slots,
the table stands for a finite map: putting a new key into an empty slot adds a binding, and
emptying a slot removes one.
-/

namespace Xv6Prng.SlotTable

open Function

/-- Slots from `size` on are empty. -/
structure Table (κ ν : Type*) where
  size : ℕ
  slot : ℕ → Option (κ × ν)
  bound : ∀ k, size ≤ k → slot k = none

namespace Table

variable {κ ν : Type*}

@[ext] theorem ext {t u : Table κ ν} (hsize : t.size = u.size) (hslot : ∀ k, t.slot k = u.slot k) :
    t = u := by
  cases t
  cases u
  obtain rfl : _ = _ := hsize
  obtain rfl : _ = _ := funext hslot
  rfl

def fill (t : Table κ ν) (k : ℕ) (a : κ) (v : ν) : Table κ ν where
  size := max t.size (k + 1)
  slot := Function.update t.slot k (some (a, v))
  bound l hl := by
    rw [Function.update_of_ne (by omega), t.bound l (by omega)]

def clear (t : Table κ ν) (k : ℕ) : Table κ ν where
  size := t.size
  slot := Function.update t.slot k none
  bound l hl := by
    by_cases h : l = k
    · rw [h, Function.update_self]
    · rw [Function.update_of_ne h, t.bound l hl]

def Distinct (t : Table κ ν) : Prop :=
  ∀ k l a v w, t.slot k = some (a, v) → t.slot l = some (a, w) → k = l

section Fill

variable {t : Table κ ν} {k l : ℕ} {a b : κ} {v w : ν}

theorem lt_size (h : t.slot k = some (a, v)) : k < t.size := by
  by_contra hge
  rw [t.bound k (Nat.not_lt.mp hge)] at h
  cases h

theorem map_fst_eq_some : (t.slot k).map Prod.fst = some a ↔ ∃ v, t.slot k = some (a, v) := by
  rw [Option.map_eq_some_iff]
  constructor
  · rintro ⟨⟨b, v⟩, hk, rfl⟩
    exact ⟨v, hk⟩
  · rintro ⟨v, hk⟩
    exact ⟨(a, v), hk, rfl⟩

theorem slot_fill_self : (t.fill k a v).slot k = some (a, v) := update_self ..

theorem slot_fill_of_ne (h : l ≠ k) : (t.fill k a v).slot l = t.slot l :=
  update_of_ne h _ _

theorem slot_clear_self : (t.clear k).slot k = none := update_self ..

theorem slot_clear_of_ne (h : l ≠ k) : (t.clear k).slot l = t.slot l := update_of_ne h _ _

theorem slot_fill_eq_some :
    (t.fill k a v).slot l = some (b, w) ↔
      l = k ∧ a = b ∧ v = w ∨ l ≠ k ∧ t.slot l = some (b, w) := by
  by_cases h : l = k
  · rw [h, slot_fill_self, Option.some_inj, Prod.mk.injEq]
    simp
  · rw [slot_fill_of_ne h]
    simp [h]

theorem slot_clear_eq_some :
    (t.clear k).slot l = some (b, w) ↔ l ≠ k ∧ t.slot l = some (b, w) := by
  by_cases h : l = k
  · rw [h, slot_clear_self]
    simp
  · rw [slot_clear_of_ne h]
    simp [h]

theorem Distinct.fill (h : t.Distinct) (ha : ∀ l w, t.slot l ≠ some (a, w)) :
    (t.fill k a v).Distinct := by
  intro l m b w w' hl hm
  rw [slot_fill_eq_some] at hl hm
  rcases hl with ⟨rfl, rfl, rfl⟩ | ⟨-, hl⟩ <;> rcases hm with ⟨rfl, hb, -⟩ | ⟨-, hm⟩
  · rfl
  · exact absurd hm (ha m w')
  · exact absurd (hb ▸ hl) (ha l w)
  · exact h l m b w w' hl hm

theorem Distinct.clear (h : t.Distinct) : (t.clear k).Distinct := by
  intro l m b w w' hl hm
  rw [slot_clear_eq_some] at hl hm
  exact h l m b w w' hl.2 hm.2

end Fill

section Map

variable [DecidableEq κ] (t : Table κ ν) (a : κ)

def find : Option ℕ := (List.range t.size).find? fun k => (t.slot k).map Prod.fst = some a

def get : Option ν := (t.find a).bind fun k => (t.slot k).map Prod.snd

variable {t a} {k : ℕ} {b : κ} {v : ν}

theorem find_eq_none : t.find a = none ↔ ∀ k v, t.slot k ≠ some (a, v) := by
  rw [find, List.find?_eq_none]
  constructor
  · intro h k v hk
    refine h k (List.mem_range.mpr (lt_size hk)) (decide_eq_true ?_)
    exact map_fst_eq_some.mpr ⟨v, hk⟩
  · intro h k _ hk
    obtain ⟨v, hv⟩ := map_fst_eq_some.mp (of_decide_eq_true hk)
    exact h k v hv

theorem find_eq_some_iff : t.find a = some k ↔
    (∃ v, t.slot k = some (a, v)) ∧ ∀ l < k, ∀ w, t.slot l ≠ some (a, w) := by
  rw [find, List.find?_range_eq_some, decide_eq_true_eq, map_fst_eq_some, List.mem_range]
  simp only [map_fst_eq_some, Bool.not_eq_true', decide_eq_false_iff_not, not_exists]
  exact ⟨fun h => ⟨h.1, h.2.2⟩, fun ⟨⟨v, hk⟩, h⟩ => ⟨⟨v, hk⟩, lt_size hk, h⟩⟩

theorem slot_of_find (h : t.find a = some k) : ∃ v, t.slot k = some (a, v) :=
  (find_eq_some_iff.mp h).1

theorem find_eq_some (ht : t.Distinct) : t.find a = some k ↔ ∃ v, t.slot k = some (a, v) := by
  refine ⟨slot_of_find, fun ⟨v, hk⟩ => ?_⟩
  cases hf : t.find a with
  | none => exact absurd hk (find_eq_none.mp hf k v)
  | some l =>
    obtain ⟨w, hl⟩ := slot_of_find hf
    rw [ht l k a w v hl hk]

theorem get_eq_none : t.get a = none ↔ ∀ k v, t.slot k ≠ some (a, v) := by
  rw [← find_eq_none, get]
  cases hf : t.find a with
  | none => simp
  | some k =>
    obtain ⟨v, hk⟩ := slot_of_find hf
    simp [hk]

theorem slot_of_get (h : t.get a = some v) : ∃ k, t.slot k = some (a, v) := by
  obtain ⟨k, hf, hk⟩ := Option.bind_eq_some_iff.mp h
  obtain ⟨w, hw⟩ := slot_of_find hf
  rw [hw, Option.map_some, Option.some_inj] at hk
  exact ⟨k, hk ▸ hw⟩

theorem get_of_find (hf : t.find a = some k) (hk : t.slot k = some (a, v)) : t.get a = some v := by
  rw [get, hf, Option.bind_some, hk, Option.map_some]

theorem get_eq_some (ht : t.Distinct) : t.get a = some v ↔ ∃ k, t.slot k = some (a, v) :=
  ⟨slot_of_get, fun ⟨_, hk⟩ => get_of_find ((find_eq_some ht).mpr ⟨v, hk⟩) hk⟩

theorem get_congr {u : Table κ ν} (ht : t.Distinct) (hu : u.Distinct)
    (h : ∀ v, (∃ k, u.slot k = some (b, v)) ↔ ∃ k, t.slot k = some (b, v)) : u.get b = t.get b := by
  refine Option.ext fun v => ?_
  rw [get_eq_some hu, get_eq_some ht]
  exact h v

theorem get_fill (ht : t.Distinct) (hk : t.slot k = none) (ha : t.get a = none) :
    (t.fill k a v).get = update t.get a (some v) := by
  have hnew := get_eq_none.mp ha
  have hfill : (t.fill k a v).Distinct := ht.fill hnew
  funext b
  by_cases hb : b = a
  · rw [hb, update_self]
    exact (get_eq_some hfill).mpr ⟨k, slot_fill_self⟩
  · rw [update_of_ne hb]
    refine get_congr ht hfill fun w => exists_congr fun l => ?_
    rw [slot_fill_eq_some]
    constructor
    · rintro (⟨-, hab, -⟩ | ⟨-, hl⟩)
      · exact absurd hab.symm hb
      · exact hl
    · intro hl
      refine .inr ⟨?_, hl⟩
      rintro rfl
      rw [hk] at hl
      cases hl

theorem get_clear (ht : t.Distinct) (hk : t.slot k = some (a, v)) :
    (t.clear k).get = update t.get a none := by
  have hclear : (t.clear k).Distinct := ht.clear
  funext b
  by_cases hb : b = a
  · rw [hb, update_self, get_eq_none]
    intro l w hl
    obtain ⟨hne, hl⟩ := slot_clear_eq_some.mp hl
    exact hne (ht l k a w v hl hk)
  · rw [update_of_ne hb]
    refine get_congr ht hclear fun w => exists_congr fun l => ?_
    rw [slot_clear_eq_some]
    refine ⟨And.right, fun hl => ⟨?_, hl⟩⟩
    rintro rfl
    rw [hk, Option.some_inj, Prod.mk.injEq] at hl
    exact hb hl.1.symm

end Map

end Table

end Xv6Prng.SlotTable
