import Mathlib

/-!
# Doubly linked rings

A ring links the nodes of a type and a head, which is `none`. `IsRing r l` says that the
ring holds exactly the nodes of `l`, in that order from the head. A node can be taken out
and put in at the front, each by the four assignments that such code makes, and following
either pointer from the head gives the list or its reverse.
-/

namespace Xv6Prng

open Function

structure LinkedRing (α : Type*) where
  next : Option α → Option α
  prev : Option α → Option α

namespace LinkedRing

variable {α : Type*}

def node (l : List α) : ℕ → Option α
  | 0 => none
  | i + 1 => l[i]?

structure IsRing (r : LinkedRing α) (l : List α) : Prop where
  nodup : l.Nodup
  next : ∀ i ≤ l.length, r.next (node l i) = node l (i + 1)
  prev : ∀ i ≤ l.length, r.prev (node l (i + 1)) = node l i

theorem node_end (l : List α) : node l (l.length + 1) = none := List.getElem?_eq_none le_rfl

variable {l : List α} {r : LinkedRing α}

theorem node_inj (hl : l.Nodup) {i j : ℕ} (hi : i ≤ l.length) (hj : j ≤ l.length)
    (h : node l i = node l j) : i = j := by
  cases i with
  | zero =>
    cases j with
    | zero => rfl
    | succ j =>
      rw [node, node, List.getElem?_eq_getElem hj] at h
      cases h
  | succ i =>
    cases j with
    | zero =>
      rw [node, node, List.getElem?_eq_getElem hi] at h
      cases h
    | succ j =>
      rw [node, node, List.getElem?_eq_getElem hi, List.getElem?_eq_getElem hj] at h
      exact congrArg (· + 1) ((hl.getElem_inj_iff).mp (Option.some.inj h))

theorem node_cons_succ (a : α) (l : List α) (i : ℕ) : node (a :: l) (i + 2) = node l (i + 1) := rfl

theorem node_eraseIdx (l : List α) (j i : ℕ) :
    node (l.eraseIdx j) i = if i ≤ j then node l i else node l (i + 1) := by
  cases i with
  | zero => rfl
  | succ i =>
    rw [node, List.getElem?_eraseIdx]
    rfl

def walk (f : Option α → Option α) : ℕ → Option α → List α
  | 0, _ => []
  | fuel + 1, x =>
    match f x with
    | none => []
    | some a => a :: walk f fuel (some a)

theorem IsRing.walk_from (h : IsRing r l) (fuel i : ℕ) (hi : i ≤ l.length) :
    walk r.next fuel (node l i) = (l.drop i).take fuel := by
  induction fuel generalizing i with
  | zero => simp [walk]
  | succ fuel ih =>
    rw [walk, h.next i hi, node]
    by_cases hlt : i < l.length
    · have hrest := ih (i + 1) hlt
      rw [node, List.getElem?_eq_getElem hlt] at hrest
      rw [List.getElem?_eq_getElem hlt, List.drop_eq_getElem_cons hlt, List.take_succ_cons]
      exact congrArg (l[i] :: ·) hrest
    · rw [List.getElem?_eq_none (by omega), List.drop_eq_nil_of_le (by omega), List.take_nil]

theorem IsRing.walk_next (h : IsRing r l) {fuel : ℕ} (hfuel : l.length ≤ fuel) :
    walk r.next fuel none = l := by
  have hwalk := h.walk_from fuel 0 (Nat.zero_le _)
  rwa [List.drop_zero, List.take_of_length_le hfuel] at hwalk

def swap (r : LinkedRing α) : LinkedRing α := ⟨r.prev, r.next⟩

theorem node_reverse (l : List α) {i : ℕ} (hi : i ≤ l.length + 1) :
    node l.reverse i = node l (l.length + 1 - i) := by
  cases i with
  | zero => exact (node_end l).symm
  | succ i =>
    by_cases hlt : i < l.length
    · rw [node, List.getElem?_reverse hlt, show l.length + 1 - (i + 1) = l.length - 1 - i + 1 by omega]
      rfl
    · have hend : i = l.length := by omega
      rw [hend, Nat.sub_self]
      exact List.getElem?_eq_none (by simp)

theorem IsRing.swap (h : IsRing r l) : IsRing r.swap l.reverse  where
  nodup := List.nodup_reverse.mpr h.nodup
  next i hi := by
    rw [List.length_reverse] at hi
    rw [node_reverse l (by omega), node_reverse l (by omega),
      show l.length + 1 - i = l.length - i + 1 by omega,
      show l.length + 1 - (i + 1) = l.length - i by omega]
    exact h.prev _ (by omega)
  prev i hi := by
    rw [List.length_reverse] at hi
    rw [node_reverse l (by omega), node_reverse l (by omega),
      show l.length + 1 - i = l.length - i + 1 by omega,
      show l.length + 1 - (i + 1) = l.length - i by omega]
    exact h.next _ (by omega)

theorem IsRing.walk_prev (h : IsRing r l) {fuel : ℕ} (hfuel : l.length ≤ fuel) :
    walk r.prev fuel none = l.reverse :=
  h.swap.walk_next (by rwa [List.length_reverse])

def empty : LinkedRing α := ⟨fun _ => none, fun _ => none⟩

theorem isRing_empty : IsRing (empty : LinkedRing α) [] where
  nodup := List.nodup_nil
  next i hi := by
    rw [Nat.le_zero.mp hi]
    rfl
  prev i hi := by
    rw [Nat.le_zero.mp hi]
    rfl

variable [DecidableEq α]

def setNext (r : LinkedRing α) (x y : Option α) : LinkedRing α :=
  { r with next := Function.update r.next x y }

def setPrev (r : LinkedRing α) (x y : Option α) : LinkedRing α :=
  { r with prev := Function.update r.prev x y }

@[simp] theorem setNext_next (r : LinkedRing α) (x y : Option α) :
    (r.setNext x y).next = update r.next x y := rfl

@[simp] theorem setNext_prev (r : LinkedRing α) (x y : Option α) :
    (r.setNext x y).prev = r.prev := rfl

@[simp] theorem setPrev_next (r : LinkedRing α) (x y : Option α) :
    (r.setPrev x y).next = r.next := rfl

@[simp] theorem setPrev_prev (r : LinkedRing α) (x y : Option α) :
    (r.setPrev x y).prev = update r.prev x y := rfl

def unlink (r : LinkedRing α) (b : α) : LinkedRing α :=
  let r := r.setPrev (r.next (some b)) (r.prev (some b))
  r.setNext (r.prev (some b)) (r.next (some b))

/-- `b->next = head.next; b->prev = &head; head.next->prev = b; head.next = b`. -/
def pushFront (r : LinkedRing α) (b : α) : LinkedRing α :=
  let r := r.setNext (some b) (r.next none)
  let r := r.setPrev (some b) none
  let r := r.setPrev (r.next none) (some b)
  r.setNext none (some b)

theorem IsRing.pushFront (h : IsRing r l) {b : α} (hb : b ∉ l) :
    IsRing (r.pushFront b) (b :: l) := by
  have hne (i : ℕ) : node l i ≠ some b := by
    cases i with
    | zero => exact nofun
    | succ i => exact fun heq => hb (List.mem_of_getElem? heq)
  have hfirst : r.next none = node l 1 := h.next 0 (Nat.zero_le _)
  have hnext : (r.pushFront b).next =
      update (update r.next (some b) (node l 1)) none (some b) := by
    simp [LinkedRing.pushFront, hfirst]
  have hprev : (r.pushFront b).prev =
      update (update r.prev (some b) none) (node l 1) (some b) := by
    simp [LinkedRing.pushFront, hfirst]
  refine ⟨List.nodup_cons.mpr ⟨hb, h.nodup⟩, fun i hi => ?_, fun i hi => ?_⟩
  · rw [hnext]
    match i with
    | 0 => exact update_self ..
    | 1 =>
      exact (update_of_ne (Option.some_ne_none b) _ _).trans (update_self ..)
    | i + 2 =>
      have hi' : i + 1 ≤ l.length := by simpa using hi
      have hnone : node l (i + 1) ≠ none := by
        rw [node, List.getElem?_eq_getElem hi']
        exact nofun
      rw [node_cons_succ, node_cons_succ, update_of_ne hnone,
        update_of_ne (hne _)]
      exact h.next _ hi'
  · rw [hprev]
    match i with
    | 0 =>
      exact (update_of_ne (hne 1).symm _ _).trans (update_self ..)
    | 1 => exact update_self ..
    | i + 2 =>
      have hi' : i + 1 ≤ l.length := by simpa using hi
      have hother : node l (i + 1 + 1) ≠ node l 1 := by
        intro heq
        by_cases hlast : i + 1 + 1 ≤ l.length
        · have := node_inj h.nodup hlast (by omega) heq
          omega
        · rw [show i + 1 + 1 = l.length + 1 by omega, node_end] at heq
          rw [node, List.getElem?_eq_getElem (by omega)] at heq
          cases heq
      rw [node_cons_succ, node_cons_succ, update_of_ne hother,
        update_of_ne (hne _)]
      exact h.prev _ hi'

theorem IsRing.unlink (h : IsRing r l) {b : α} (hb : b ∈ l) : IsRing (r.unlink b) (l.erase b) := by
  obtain ⟨j, hj, rfl⟩ := List.getElem_of_mem hb
  have herase : l.erase l[j] = l.eraseIdx j := by
    rw [List.erase_eq_eraseIdx_of_idxOf (h.nodup.idxOf_getElem j hj)]
  have hb : some l[j] = node l (j + 1) := (List.getElem?_eq_getElem hj).symm
  have hlen : (l.eraseIdx j).length = l.length - 1 := by rw [List.length_eraseIdx_of_lt hj]
  -- the neighbours of the node; `j + 2` is the head again when the node is the last
  have hbn : r.next (some l[j]) = node l (j + 2) := by rw [hb]; exact h.next _ (by omega)
  have hbp : r.prev (some l[j]) = node l j := by rw [hb]; exact h.prev _ (by omega)
  have hnode {i k : ℕ} (hi : i ≤ l.length) (hk : k ≤ l.length + 1) (hne : i ≠ k)
      (hend : i ≠ 0 ∨ k ≠ l.length + 1) : node l i ≠ node l k := by
    intro heq
    by_cases hlast : k ≤ l.length
    · exact hne (node_inj h.nodup hi hlast heq)
    · rw [show k = l.length + 1 by omega, node_end] at heq
      exact absurd (node_inj h.nodup hi (Nat.zero_le _) heq) (by omega)
  have hself : r.prev (some l[j]) = (r.setPrev (node l (j + 2)) (node l j)).prev (some l[j]) := by
    rw [setPrev_prev, update_of_ne]
    rw [hb]
    exact hnode (by omega) (by omega) (by omega) (by omega)
  have hnext : (r.unlink l[j]).next = update r.next (node l j) (node l (j + 2)) := by
    simp only [LinkedRing.unlink, setNext_next, setPrev_next]
    rw [hbn, hbp, ← hself, hbp]
  have hprev : (r.unlink l[j]).prev = update r.prev (node l (j + 2)) (node l j) := by
    simp only [LinkedRing.unlink, setNext_prev, setPrev_prev, hbn, hbp]
  rw [herase]
  refine ⟨h.nodup.eraseIdx j, fun i hi => ?_, fun i hi => ?_⟩
  · rw [hnext, node_eraseIdx, node_eraseIdx]
    rcases lt_trichotomy i j with hlt | heq | hgt
    · rw [if_pos hlt.le, if_pos (by omega),
        update_of_ne (hnode (by omega) (by omega) hlt.ne (by omega))]
      exact h.next _ (by omega)
    · rw [heq, if_pos le_rfl, if_neg (by omega), update_self]
    · rw [if_neg (by omega), if_neg (by omega),
        update_of_ne (hnode (by omega) (by omega) (by omega) (by omega))]
      exact h.next _ (by omega)
  · rw [hprev, node_eraseIdx, node_eraseIdx]
    rcases lt_trichotomy i j with hlt | heq | hgt
    · rw [if_pos (by omega), if_pos hlt.le,
        update_of_ne (hnode (by omega) (by omega) (by omega) (by omega))]
      exact h.prev _ (by omega)
    · rw [heq, if_neg (by omega), if_pos le_rfl, update_self]
    · rw [if_neg (by omega), if_neg (by omega), update_of_ne]
      · exact h.prev _ (by omega)
      · intro hsame
        refine hnode (i := j + 2) (k := i + 1 + 1) (by omega) (by omega) (by omega) (by omega) ?_
        exact hsame.symm

end LinkedRing

end Xv6Prng
