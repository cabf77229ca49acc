import Mathlib

/-!
# Lists of extents

An extent is a run of consecutive addresses. A list of extents is separated when it is in the
order of the addresses with a gap between any two. `join e l` puts an extent in front of a
list and melts it with the first one of the list if they touch; joining changes neither the
addresses covered nor their number, and keeps a list separated.
-/

namespace Xv6Prng

structure Extent where
  start : ℕ
  len : ℕ
  deriving DecidableEq

namespace Extent

def finish (e : Extent) : ℕ := e.start + e.len

def words (e : Extent) : Set ℕ := Set.Ico e.start e.finish

def covered (l : List Extent) : Set ℕ := {x | ∃ e ∈ l, x ∈ e.words}

def total (l : List Extent) : ℕ := (l.map len).sum

def Separated (l : List Extent) : Prop := l.Pairwise fun e f => e.finish < f.start

def join (e : Extent) : List Extent → List Extent
  | [] => [e]
  | f :: l => if e.finish = f.start then ⟨e.start, e.len + f.len⟩ :: l else e :: f :: l

variable {e f : Extent} {l l₁ l₂ : List Extent} {x : ℕ}

theorem mem_words : x ∈ e.words ↔ e.start ≤ x ∧ x < e.finish := Iff.rfl

@[simp] theorem covered_nil : covered [] = ∅ := by simp [covered]

@[simp] theorem covered_cons : covered (e :: l) = e.words ∪ covered l := by
  ext x
  simp [covered]

@[simp] theorem covered_append : covered (l₁ ++ l₂) = covered l₁ ∪ covered l₂ := by
  ext x
  simp only [covered, List.mem_append, Set.mem_ofPred_eq, Set.mem_union, or_and_right, exists_or]

@[simp] theorem total_nil : total [] = 0 := rfl

@[simp] theorem total_cons : total (e :: l) = e.len + total l := by simp [total]

@[simp] theorem total_append : total (l₁ ++ l₂) = total l₁ + total l₂ := by simp [total]

theorem covered_middle : covered (l₁ ++ e :: l₂) = covered (l₁ ++ l₂) ∪ e.words := by
  simp only [covered_append, covered_cons]
  rw [← Set.union_assoc, Set.union_right_comm]

theorem total_middle : total (l₁ ++ e :: l₂) = total (l₁ ++ l₂) + e.len := by
  simp only [total_append, total_cons]
  omega

theorem words_subset_covered (he : e ∈ l) : e.words ⊆ covered l := fun _ hx => ⟨e, he, hx⟩

theorem words_split {a n k : ℕ} (hk : k ≤ n) :
    (⟨a, n⟩ : Extent).words = (⟨a, k⟩ : Extent).words ∪ (⟨a + k, n - k⟩ : Extent).words := by
  ext x
  simp only [words, finish, Set.mem_union, Set.mem_Ico]
  omega

theorem covered_join : covered (join e l) = covered (e :: l) := by
  cases l with
  | nil => rfl
  | cons f l =>
    rw [join]
    split_ifs with htouch
    · obtain ⟨a, k⟩ := e
      obtain ⟨b, n⟩ := f
      obtain rfl : a + k = b := htouch
      rw [covered_cons, covered_cons, covered_cons, words_split (Nat.le_add_right k n),
        Nat.add_sub_cancel_left, Set.union_assoc]
    · rfl

theorem total_join : total (join e l) = total (e :: l) := by
  cases l with
  | nil => rfl
  | cons f l =>
    rw [join]
    split_ifs
    · simp only [total_cons]
      omega
    · rfl

theorem join_eq_cons (e : Extent) (l : List Extent) :
    ∃ f l', join e l = f :: l' ∧ f.start = e.start ∧ e.len ≤ f.len ∧ l' <:+ l := by
  cases l with
  | nil => exact ⟨e, [], rfl, rfl, le_rfl, List.suffix_rfl⟩
  | cons f l =>
    rw [join]
    split_ifs
    · exact ⟨_, l, rfl, rfl, Nat.le_add_right _ _, List.suffix_cons f l⟩
    · exact ⟨e, f :: l, rfl, rfl, le_rfl, List.suffix_rfl⟩

theorem start_mem_join (h : f ∈ join e l) : f.start = e.start ∨ f ∈ l := by
  obtain ⟨g, l', hjoin, hstart, -, hsuffix⟩ := join_eq_cons e l
  rw [hjoin] at h
  rcases List.mem_cons.mp h with rfl | h
  · exact Or.inl hstart
  · exact Or.inr (hsuffix.subset h)

theorem length_join_le (e : Extent) (l : List Extent) : (e.join l).length ≤ l.length + 1 := by
  obtain ⟨f, l', hjoin, -, -, hsuffix⟩ := join_eq_cons e l
  rw [hjoin, List.length_cons]
  exact Nat.succ_le_succ hsuffix.length_le

theorem len_pos_join (he : 0 < e.len) (hl : ∀ f ∈ l, 0 < f.len) (h : f ∈ join e l) :
    0 < f.len := by
  obtain ⟨g, l', hjoin, -, hlen, hsuffix⟩ := join_eq_cons e l
  rw [hjoin] at h
  rcases List.mem_cons.mp h with rfl | h
  · omega
  · exact hl f (hsuffix.subset h)

theorem exists_len_le_join (hf : f ∈ e :: l) : ∃ g ∈ e.join l, f.len ≤ g.len := by
  cases l with
  | nil => exact ⟨f, hf, le_rfl⟩
  | cons g l =>
    rw [join]
    split_ifs
    · rcases List.mem_cons.mp hf with rfl | hf
      · exact ⟨_, List.mem_cons_self, Nat.le_add_right _ _⟩
      · rcases List.mem_cons.mp hf with rfl | hf
        · exact ⟨_, List.mem_cons_self, Nat.le_add_left _ _⟩
        · exact ⟨f, List.mem_cons_of_mem _ hf, le_rfl⟩
    · exact ⟨f, hf, le_rfl⟩

theorem Separated.join (h : Separated l) (hpos : ∀ f ∈ l, 0 < f.len)
    (he : ∀ f ∈ l, e.finish ≤ f.start) : Separated (e.join l) := by
  cases l with
  | nil => exact List.pairwise_singleton _ _
  | cons f l =>
    obtain ⟨hf, hl⟩ := List.pairwise_cons.mp h
    have hfirst := he f List.mem_cons_self
    rw [Extent.join]
    split_ifs with htouch
    · refine List.pairwise_cons.mpr ⟨fun g hg => ?_, hl⟩
      have hgap := hf g hg
      simp only [finish] at hgap htouch ⊢
      omega
    · refine List.pairwise_cons.mpr ⟨fun g hg => ?_, h⟩
      rcases List.mem_cons.mp hg with rfl | hg
      · exact lt_of_le_of_ne hfirst htouch
      · have hgap := hf g hg
        simp only [finish] at hgap hfirst ⊢
        omega

theorem Separated.insert {e' : Extent} (h : Separated (l₁ ++ e :: l₂))
    (hpos : ∀ f ∈ l₂, 0 < f.len) (hnew : 0 < e'.len) (hleft : e.finish ≤ e'.start)
    (hright : ∀ f ∈ l₂, e'.finish ≤ f.start) :
    Separated (l₁ ++ e.join (e'.join l₂)) := by
  obtain ⟨hl₁, hrest, hcross⟩ := List.pairwise_append.mp h
  have hl₂ : Separated l₂ := (List.pairwise_cons.mp hrest).2
  have hbound : ∀ f ∈ e'.join l₂, e.finish ≤ f.start := by
    intro f hf
    rcases start_mem_join hf with hf | hf
    · rw [hf]
      exact hleft
    · have hle := hright f hf
      simp only [finish] at hle hleft ⊢
      omega
  refine List.pairwise_append.mpr ⟨hl₁, ?_, ?_⟩
  · exact (hl₂.join hpos hright).join (fun f hf => len_pos_join hnew hpos hf) hbound
  · intro g hg f hf
    have hge : g.finish < e.start := hcross g hg e List.mem_cons_self
    rcases start_mem_join hf with hf | hf
    · rw [hf]
      exact hge
    · have hle := hbound f hf
      simp only [finish] at hge hle ⊢
      omega

theorem Separated.start_lt (h : Separated (e :: l)) (hf : f ∈ l) : e.start < f.start := by
  have hlt := (List.pairwise_cons.mp h).1 f hf
  simp only [finish] at hlt
  omega

theorem Separated.shorten {k : ℕ} (h : Separated (l₁ ++ e :: l₂)) (hk : k ≤ e.len) :
    Separated (l₁ ++ ⟨e.start, k⟩ :: l₂) := by
  obtain ⟨hl₁, hrest, hcross⟩ := List.pairwise_append.mp h
  obtain ⟨he, hl₂⟩ := List.pairwise_cons.mp hrest
  refine List.pairwise_append.mpr ⟨hl₁, List.pairwise_cons.mpr ⟨fun f hf => ?_, hl₂⟩, ?_⟩
  · have hlt := he f hf
    simp only [finish] at hlt ⊢
    omega
  · intro g hg f hf
    rcases List.mem_cons.mp hf with rfl | hf
    · exact hcross g hg e List.mem_cons_self
    · exact hcross g hg f (List.mem_cons_of_mem e hf)

theorem Separated.disjoint_words (h : Separated (l₁ ++ e :: l₂)) :
    Disjoint e.words (covered (l₁ ++ l₂)) := by
  obtain ⟨-, hrest, hcross⟩ := List.pairwise_append.mp h
  have he := (List.pairwise_cons.mp hrest).1
  rw [Set.disjoint_left]
  intro x hx hxl
  obtain ⟨f, hf, hxf⟩ := hxl
  rw [mem_words] at hx hxf
  rcases List.mem_append.mp hf with hf | hf
  · have hlt := hcross f hf e List.mem_cons_self
    omega
  · have hlt := he f hf
    omega

theorem Separated.exists_split (h : Separated (e :: l)) (hx : e.start < x)
    (hne : ∀ f ∈ l, f.start ≠ x) :
    ∃ pre f post, e :: l = pre ++ f :: post ∧ f.start < x ∧ ∀ g ∈ post, x < g.start := by
  induction l generalizing e with
  | nil => exact ⟨[], e, [], rfl, hx, by simp⟩
  | cons f l ih =>
    have hrest : Separated (f :: l) := (List.pairwise_cons.mp h).2
    rcases Nat.lt_or_gt_of_ne (hne f List.mem_cons_self) with hf | hf
    · obtain ⟨pre, g, post, heq, hg, hpost⟩ :=
        ih hrest hf fun g hg => hne g (List.mem_cons_of_mem f hg)
      exact ⟨e :: pre, g, post, by rw [heq, List.cons_append], hg, hpost⟩
    · refine ⟨[], e, f :: l, rfl, hx, fun g hg => ?_⟩
      rcases List.mem_cons.mp hg with rfl | hg
      · exact hf
      · exact hf.trans (hrest.start_lt hg)

end Extent
end Xv6Prng
