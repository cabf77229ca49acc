import Xv6Prng.Unmapping

/-!
# `growproc`

A process of size `sz` has exactly the pages below `sz` mapped. `growproc` keeps that when it
grows the process and when it shrinks it, and a growth that fails half-way is undone. Two cases
of shrinking are wrong. Below zero the new size wraps around to one above the old, and
`deallocuvm` does nothing, which counts as success. At zero everything is unmapped, and the size
0 that `deallocuvm` returns counts as failure.
-/

namespace Xv6Prng.UserSpace

open Halting Function

def MapsBelow (d : PgDir) (k : ℕ) : Prop := ∀ v < KERNBASE, (d.pte v).Present ↔ v < k

structure Sound (L : Layout) (d : PgDir) (s : Machine) : Prop where
  nodup : (s.pool.free + d.owned).Nodup
  freeable : ∀ p ∈ s.pool.free + d.owned, Freeable L p

section Owned

variable {d : PgDir} {u v : ℕ}

theorem add_le_sum_range {f : ℕ → Multiset PageNo} {k : ℕ} (hu : u < k) (hv : v < k) (h : u ≠ v) :
    f u + f v ≤ ∑ i ∈ Finset.range k, f i := by
  rw [← Finset.add_sum_erase _ f (Finset.mem_range.mpr hu),
    ← Finset.add_sum_erase _ f (Finset.mem_erase.mpr ⟨h.symm, Finset.mem_range.mpr hv⟩),
    ← add_assoc]
  exact Multiset.le_add_right _ _

theorem onePage_add_le_owned (hu : u < KERNBASE) (hv : v < KERNBASE) (h : u ≠ v) :
    onePage (d.pte u).mapped + onePage (d.pte v).mapped ≤ d.owned := by
  obtain ⟨k, hk⟩ : ∃ k, k = KERNBASE := ⟨_, rfl⟩
  rw [PgDir.owned_eq, ← hk]
  rw [← hk] at hu hv
  exact (add_le_sum_range (f := fun v => onePage (d.pte v).mapped) hu hv h).trans
    (Multiset.le_add_left _ _)

theorem frame_mem_owned (hv : v < KERNBASE) (h : (d.pte v).Present) :
    (d.pte v).frame ∈ d.owned := by
  obtain ⟨u, hu, hne⟩ : ∃ u < KERNBASE, v ≠ u := by
    rcases Nat.eq_zero_or_pos v with rfl | hpos
    · exact ⟨1, by decide, by decide⟩
    · exact ⟨0, by decide, by omega⟩
  have hle := onePage_add_le_owned (d := d) hv hu hne
  rw [mapped_of_present h, onePage] at hle
  exact Multiset.mem_of_le hle (Multiset.mem_add.mpr (Or.inl (Multiset.mem_singleton_self _)))

theorem frame_injective (hnodup : d.owned.Nodup) (hu : u < KERNBASE) (hv : v < KERNBASE)
    (hpu : (d.pte u).Present) (hpv : (d.pte v).Present)
    (heq : (d.pte u).frame = (d.pte v).frame) : u = v := by
  by_contra hne
  have hle := onePage_add_le_owned (d := d) hu hv hne
  rw [mapped_of_present hpu, mapped_of_present hpv, heq, onePage] at hle
  have htwice := Multiset.nodup_of_le hle hnodup
  exact Multiset.disjoint_left.mp (Multiset.nodup_add.mp htwice).2.2
    (Multiset.mem_singleton_self _) (Multiset.mem_singleton_self _)
end Owned

theorem mem_kfreedAll {q : PageNo} {ps : List PageNo} (h : q ∉ ps) (s : Machine) :
    (s.kfreedAll ps).mem q = s.mem q := by
  induction ps generalizing s with
  | nil => rfl
  | cons p ps ih =>
    rw [List.mem_cons, not_or] at h
    rw [Machine.kfreedAll, List.foldl_cons]
    exact (ih h.2 (s.kfreed p)).trans (update_of_ne h.1 _ _)

theorem free_kfreedAll (s : Machine) (ps : List PageNo) :
    (s.kfreedAll ps).pool.free = s.pool.free + ↑ps := by
  induction ps generalizing s with
  | nil => exact (add_zero _).symm
  | cons p ps ih =>
    rw [Machine.kfreedAll, List.foldl_cons]
    refine (ih (s.kfreed p)).trans ?_
    rw [Machine.kfreed, Pool.free, coe_cons, coe_cons, Pool.free]
    abel

/-- The pages below `a` are mapped, those below `m` as in the beginning. The pages `x` are
neither free nor in the directory. -/
structure Holds (d₀ : PgDir) (s₀ : Machine) (x : Multiset PageNo) (m a : ℕ) (d : PgDir)
    (s : Machine) : Prop where
  below : MapsBelow d a
  kept : ∀ v < m, d.pte v = d₀.pte v ∧ s.mem (d₀.pte v).frame = s₀.mem (d₀.pte v).frame
  total : s.pool.free + x + d.owned = s₀.pool.free + d₀.owned

variable {s' : Machine}

section Grow

variable {L : Layout} {d₀ d : PgDir} {s₀ s : Machine} {x : Multiset PageNo} {m a : ℕ}

theorem Holds.refl (h : MapsBelow d a) (m : ℕ) (s : Machine) : Holds d s 0 m a d s :=
  ⟨h, fun _ _ => ⟨rfl, rfl⟩, by rw [add_zero]⟩

theorem Holds.nodup (h : Holds d₀ s₀ x m a d s) (hs : Sound L d₀ s₀) :
    (s.pool.free + x + d.owned).Nodup := by
  rw [h.total]
  exact hs.nodup

variable {p : PageNo}

section Frames

variable (h : Holds d₀ s₀ x m a d s) (hs : Sound L d₀ s₀)
include h hs

theorem Holds.freeable (hp : p ∈ s.pool.free + x + d.owned) : Freeable L p :=
  hs.freeable p (by rwa [← h.total])

theorem Holds.frame_freeable {v : ℕ}
    (hv : v < KERNBASE) (hpresent : (d.pte v).Present) : Freeable L (d.pte v).frame :=
  h.freeable hs (Multiset.mem_add.mpr (Or.inr (frame_mem_owned hv hpresent)))

theorem Holds.frame_ne {v : ℕ} (hv : v < KERNBASE)
    (hpresent : (d.pte v).Present) (hp : p ∈ x) : (d.pte v).frame ≠ p := by
  rintro rfl
  have hdisjoint := (Multiset.nodup_add.mp (h.nodup hs)).2.2
  exact Multiset.disjoint_left.mp hdisjoint (Multiset.mem_add.mpr (Or.inr hp))
    (frame_mem_owned hv hpresent)

end Frames

theorem Holds.take (h : Holds d₀ s₀ 0 m a d s) (hmem : s'.mem = s.mem)
    (hlist : s.pool.freelist = p :: s'.pool.freelist) : Holds d₀ s₀ {p} m a d s'  where
  below := h.below
  kept v hv := by
    rw [hmem]
    exact h.kept v hv
  total := by
    rw [← h.total, Pool.free, Pool.free, hlist, coe_cons, add_zero]

theorem Holds.same (h : Holds d₀ s₀ x m a d s) (hmem : s'.mem = s.mem)
    (hlist : s'.pool.freelist = s.pool.freelist) : Holds d₀ s₀ x m a d s'  where
  below := h.below
  kept v hv := by
    rw [hmem]
    exact h.kept v hv
  total := by
    rw [← h.total, Pool.free, Pool.free, hlist]

theorem Holds.setPage (h : Holds d₀ s₀ x m a d s) (hs : Sound L d₀ s₀) (hma : m ≤ a)
    (ha : a ≤ KERNBASE) (hp : p ∈ x) (c : Page) :
    Holds d₀ s₀ x m a d { s with mem := update s.mem p c }  where
  below := h.below
  kept v hv := by
    obtain ⟨hpte, hmem⟩ := h.kept v hv
    have hpresent : (d.pte v).Present := (h.below v (by omega)).mpr (by omega)
    have hne := h.frame_ne hs (by omega) hpresent hp
    rw [hpte] at hne
    exact ⟨hpte, (update_of_ne hne _ _).trans hmem⟩
  total := h.total

theorem Holds.kfreed (h : Holds d₀ s₀ {p} m a d s) (hs : Sound L d₀ s₀) (hma : m ≤ a)
    (ha : a ≤ KERNBASE) : Holds d₀ s₀ 0 m a d (s.kfreed p) := by
  have hset := h.setPage hs hma ha (Multiset.mem_singleton_self p) (freePage s.pool.freelist)
  refine ⟨hset.below, hset.kept, ?_⟩
  rw [← h.total, add_zero]
  congr 1
  exact coe_cons p s.pool.freelist

theorem Holds.deallocuvm (h : Holds d₀ s₀ x m a d s) (hs : Sound L d₀ s₀) {oldsz newsz : ℕ}
    (hlt : newsz < oldsz) (hold : oldsz ≤ KERNBASE * PGSIZE) (hm : m = pages newsz) (hma : m ≤ a)
    (hae : a ≤ pages oldsz) :
    Returns (deallocuvm L d oldsz newsz) s fun r s' =>
      r.2 = newsz ∧ Holds d₀ s₀ x m m r.1 s' := by
  have hle := pages_le hold
  obtain ⟨d', hrun, hd', howned⟩ := deallocuvm_run (L := L) (d := d) (s := s) hlt fun v hv => by
    obtain ⟨-, hve, hpresent, -⟩ := mem_unmapped.mp hv
    exact h.frame_freeable hs (by omega) hpresent
  have hmem : ∀ v < KERNBASE, m ≤ v → v < a → v ∈ unmapped d (pages newsz) (pages oldsz) := by
    intro v hv hmv hva
    have htable : d.HasTable (pages newsz) :=
      PgDir.hasTable_of_present ((h.below _ (by omega)).mpr (by omega))
    exact mem_unmapped.mpr ⟨by omega, by omega, (h.below v hv).mpr hva,
      not_skipped_of_hasTable htable⟩
  have hlow : ∀ v < m, d'.pte v = d.pte v := fun v hv => by
    rw [hd' v, if_neg fun hmem => by have := (mem_unmapped.mp hmem).1; omega]
  refine ⟨_, _, hrun, rfl, fun v hv => ?_, fun v hv => ?_, ?_⟩
  · by_cases hvm : v < m
    · rw [hlow v hvm, h.below v hv]
      exact iff_of_true (by omega) hvm
    · refine iff_of_false ?_ hvm
      rw [hd' v]
      split_ifs with hun
      · decide
      · exact fun hpresent => hun (hmem v hv (not_lt.mp hvm) ((h.below v hv).mp hpresent))
  · obtain ⟨hpte, hcontents⟩ := h.kept v hv
    refine ⟨(hlow v hv).trans hpte, (mem_kfreedAll (fun hin => ?_) s).trans hcontents⟩
    -- a page that is freed is mapped at `m` or above, so it is not the one of `v`
    obtain ⟨u, hu, heq⟩ := List.mem_map.mp hin
    obtain ⟨hmu, hue, hpresent, -⟩ := mem_unmapped.mp hu
    have howned := (Multiset.nodup_add.mp (h.nodup hs)).2.1
    have huv := frame_injective howned (by omega : u < KERNBASE) (by omega : v < KERNBASE) hpresent
      ((h.below v (by omega)).mpr (by omega)) (by rw [heq, hpte])
    omega
  · rw [← h.total, free_kfreedAll, howned hle]
    abel

def Zeroed (m a : ℕ) (d : PgDir) (s : Machine) : Prop :=
  ∀ v, m ≤ v → v < a → (d.pte v).flags = PTE_W ||| PTE_U ||| PTE_P ∧
    s.mem (d.pte v).frame = fun _ => 0

theorem Holds.mappages (h : Holds d₀ s₀ {p} m a d s) (hma : m ≤ a) (ha : a < KERNBASE) :
    Returns (mappages 1 a p (PTE_W ||| PTE_U) d) s fun r s' =>
      (r.2 = true ∧ Holds d₀ s₀ 0 m (a + 1) r.1 s' ∧ s'.mem = s.mem ∧
        r.1.pte = update d.pte a ⟨p, PTE_W ||| PTE_U ||| PTE_P⟩) ∨
      (r.2 = false ∧ r.1 = d ∧ Holds d₀ s₀ {p} m a d s') := by
  have hnot : ¬ (d.pte a).Present := fun hpresent => by
    have := (h.below a ha).mp hpresent
    omega
  refine (mappages_returns ha hnot p (PTE_W ||| PTE_U) s).mono ?_
  rintro ⟨d', ok⟩ s' ⟨htakes, hfail, hok⟩
  cases ok with
  | false =>
    obtain ⟨rfl, hlist⟩ := hfail rfl
    exact Or.inr ⟨rfl, rfl, h.same htakes.mem hlist⟩
  | true =>
    obtain ⟨hpte, hfree⟩ := hok rfl
    refine Or.inl ⟨rfl, ⟨fun v hv => ?_, fun v hv => ?_, ?_⟩, htakes.mem, hpte⟩
    · rw [hpte]
      by_cases hva : v = a
      · subst hva
        rw [update_self]
        exact iff_of_true (present_or p _) (Nat.lt_succ_self v)
      · rw [update_of_ne hva, h.below v hv]
        omega
    · rw [hpte, update_of_ne (by omega), htakes.mem]
      exact h.kept v hv
    · rw [add_zero, ← h.total, add_right_comm]
      exact hfree

theorem Zeroed.map {d' : PgDir} (h : Zeroed m a d s) (hmem : s'.mem = update s.mem p fun _ => 0)
    (hpte : d'.pte = update d.pte a ⟨p, PTE_W ||| PTE_U ||| PTE_P⟩) : Zeroed m (a + 1) d' s' := by
  intro v hmv hva
  rw [hpte, hmem]
  by_cases hv : v = a
  · subst hv
    rw [update_self]
    exact ⟨rfl, update_self ..⟩
  · rw [update_of_ne hv]
    obtain ⟨hflags, hzero⟩ := h v hmv (by omega)
    refine ⟨hflags, ?_⟩
    by_cases hframe : (d.pte v).frame = p
    · rw [hframe, update_self]
    · rw [update_of_ne hframe]
      exact hzero

theorem Holds.allocLoop (hs : Sound L d₀ s₀) {oldsz newsz n : ℕ}
    (hnew : newsz < KERNBASE * PGSIZE) (hm : m = pages oldsz) (hma : m ≤ a)
    (han : a + n = pages newsz) (h : Holds d₀ s₀ 0 m a d s) (hz : Zeroed m a d s) :
    Returns (allocLoop L oldsz newsz n a d) s fun r s' =>
      (r.2 = newsz ∧ Holds d₀ s₀ 0 m (pages newsz) r.1 s' ∧ Zeroed m (pages newsz) r.1 s') ∨
      (r.2 = 0 ∧ Holds d₀ s₀ 0 m m r.1 s') := by
  have hpages := pages_le hnew.le
  induction n generalizing a d s with
  | zero =>
    obtain rfl : a = pages newsz := by omega
    exact returns_pure (Or.inl ⟨rfl, h, hz⟩)
  | succ n ih =>
    have hlt : oldsz < newsz := by
      by_contra hge
      have := pages_mono (not_lt.mp hge)
      omega
    rw [UserSpace.allocLoop]
    refine (kalloc_returns s).bind fun r s₁ hr => ?_
    obtain ⟨hmem, -, ⟨rfl, hlist⟩ | ⟨p, rfl, hlist⟩⟩ := hr
    · refine ((h.same hmem hlist).deallocuvm hs hlt hnew.le hm hma (by omega)).bind
        fun r s₂ hd => ?_
      exact returns_pure (Or.inr ⟨rfl, hd.2⟩)
    · have htake := h.take hmem hlist
      refine returns_modify_bind ?_
      have hset := htake.setPage hs hma (by omega) (Multiset.mem_singleton_self p) fun _ => 0
      refine (hset.mappages hma (by omega)).bind fun r s₂ hmap => ?_
      rcases hmap with ⟨hok, hholds, hmem₂, hpte⟩ | ⟨hfail, hsame, hholds⟩
      · rw [if_pos hok]
        have hz₂ : Zeroed m (a + 1) r.1 s₂ := hz.map (by rw [hmem₂, hmem]) hpte
        exact ih (by omega) (by omega) hholds hz₂
      · rw [if_neg (by simp [hfail]), hsame]
        refine (hholds.deallocuvm hs hlt hnew.le hm hma (by omega)).bind fun r' s₃ hd => ?_
        have hpfree : Freeable L p := hd.2.freeable hs
          (Multiset.mem_add.mpr (Or.inl (Multiset.mem_add.mpr
            (Or.inr (Multiset.mem_singleton_self p)))))
        refine Returns.bind_of_eq (kfree_run hpfree s₃) (returns_pure (Or.inr ⟨rfl, ?_⟩))
        exact hd.2.kfreed hs le_rfl (by omega)

end Grow

/-- The size is `n` more, the pages below it are mapped, the new ones are zero and the others
are as before. -/
structure Grown (p : Proc) (s : Machine) (n : ℤ) (p' : Proc) (s' : Machine) : Prop where
  size : (p'.sz.toNat : ℤ) = p.sz.toNat + n
  mapped : MapsBelow p'.pgdir (pages p'.sz.toNat)
  kept : ∀ v < pages p.sz.toNat, v < pages p'.sz.toNat → p'.pgdir.pte v = p.pgdir.pte v ∧
    s'.mem (p.pgdir.pte v).frame = s.mem (p.pgdir.pte v).frame
  zeroed : Zeroed (pages p.sz.toNat) (pages p'.sz.toNat) p'.pgdir s'

structure Unchanged (p : Proc) (s : Machine) (p' : Proc) (s' : Machine) : Prop where
  size : p'.sz = p.sz
  mapped : ∀ v < KERNBASE, (p'.pgdir.pte v).Present ↔ (p.pgdir.pte v).Present
  kept : ∀ v < KERNBASE, (p.pgdir.pte v).Present → p'.pgdir.pte v = p.pgdir.pte v ∧
    s'.mem (p.pgdir.pte v).frame = s.mem (p.pgdir.pte v).frame

def GrowsOrFails (L : Layout) (p : Proc) (n : Word) (s : Machine) : Prop :=
  Returns (growproc L p n) s fun r s' =>
    r.1 = 0 ∧ Grown p s n.toInt r.2 s' ∨ r.1 = -1 ∧ Unchanged p s r.2 s'

section Call

variable {L : Layout} {p : Proc} {n : Word} {s : Machine}

theorem Holds.unchanged {d' : PgDir}
    (h : Holds p.pgdir s 0 (pages p.sz.toNat) (pages p.sz.toNat) d' s')
    (hmaps : MapsBelow p.pgdir (pages p.sz.toNat)) : Unchanged p s { p with pgdir := d' } s'  where
  size := rfl
  mapped v hv := (h.below v hv).trans (hmaps v hv).symm
  kept v hv hpresent := h.kept v ((hmaps v hv).mp hpresent)

theorem toNat_add_of_nonneg (hsz : p.sz.toNat ≤ KERNBASE * PGSIZE) (hn : 0 ≤ n.toInt) :
    ((p.sz + n).toNat : ℤ) = p.sz.toNat + n.toInt := by
  have hlt : n.toInt < 2 ^ 31 := BitVec.toInt_lt
  rw [BitVec.toInt_eq_toNat_cond] at hn hlt ⊢
  simp only [KERNBASE, PGSIZE] at hsz
  rw [BitVec.toNat_add]
  split_ifs at * <;> omega

theorem toNat_add_of_neg (hn : n.toInt < 0) :
    ((p.sz + n).toNat : ℤ) = if 0 ≤ p.sz.toNat + n.toInt then p.sz.toNat + n.toInt
      else p.sz.toNat + n.toInt + 2 ^ 32 := by
  have hlow : -2 ^ 31 ≤ n.toInt := BitVec.le_toInt n
  have hword := p.sz.isLt
  rw [BitVec.toInt_eq_toNat_cond] at hn hlow ⊢
  rw [BitVec.toNat_add]
  split_ifs at * <;> omega

theorem growproc_below (hsz : p.sz.toNat ≤ KERNBASE * PGSIZE) (hn : n.toInt < 0)
    (hneg : p.sz.toNat + n.toInt < 0) :
    (growproc L p n).run s = .ok (if p.sz = 0 then -1 else 0, p) s := by
  have hlow : -2 ^ 31 ≤ n.toInt := BitVec.le_toInt n
  have hnew := toNat_add_of_neg (p := p) hn
  rw [if_neg (by omega)] at hnew
  simp only [KERNBASE, PGSIZE] at hsz
  have hzero : p.sz.toNat = 0 ↔ p.sz = 0 := by
    rw [← BitVec.toNat_inj]
    rfl
  rw [growproc]
  rw [if_neg (by omega), if_pos hn, deallocuvm, if_pos (by omega), pure_bind]
  simp only [hzero]
  split_ifs with h
  · rfl
  · rw [BitVec.ofNat_toNat, BitVec.setWidth_eq]
    rfl

theorem toNat_eq_zero_iff : p.sz.toNat = 0 ↔ p.sz = 0 := by
  rw [← BitVec.toNat_inj]
  rfl

theorem growsOrFails_below (hsz : p.sz.toNat ≤ KERNBASE * PGSIZE) (hn : n.toInt < 0)
    (hneg : p.sz.toNat + n.toInt < 0) : GrowsOrFails L p n s ↔ p.sz = 0 := by
  have hrun := growproc_below (L := L) (s := s) hsz hn hneg
  constructor
  · rintro ⟨r, s', hr, h⟩
    rw [hrun] at hr
    cases hr
    by_contra hne
    rw [if_neg hne] at h
    rcases h with ⟨-, hgrown⟩ | ⟨hminus, -⟩
    · have := hgrown.size
      omega
    · change (0 : Word) = -1 at hminus
      exact absurd hminus (by decide)
  · intro h0
    exact ⟨_, _, hrun, Or.inr ⟨if_pos h0, rfl, fun _ _ => Iff.rfl, fun _ _ _ => ⟨rfl, rfl⟩⟩⟩

section Sound

variable (hsz : p.sz.toNat ≤ KERNBASE * PGSIZE) (hmaps : MapsBelow p.pgdir (pages p.sz.toNat))
  (hs : Sound L p.pgdir s)
include hsz hmaps hs

theorem growproc_grows (hn : 0 < n.toInt) : GrowsOrFails L p n s := by
  have hnew := toNat_add_of_nonneg hsz hn.le
  have hrefl := Holds.refl hmaps (pages p.sz.toNat) s
  rw [GrowsOrFails, growproc]
  rw [if_pos hn, allocuvm]
  split_ifs with hbig hless
  · exact returns_pure (Or.inr ⟨rfl, hrefl.unchanged hmaps⟩)
  · omega
  · have hle : p.sz.toNat ≤ (p.sz + n).toNat := not_lt.mp hless
    have hpages := pages_mono hle
    refine (Holds.allocLoop hs (not_le.mp hbig) rfl le_rfl (by omega) hrefl
      fun v hmv hva => by omega).bind fun r s' hr => ?_
    rcases hr with ⟨hsize, hholds, hzero⟩ | ⟨hfail, hholds⟩
    · rw [if_neg (by omega), hsize, BitVec.ofNat_toNat, BitVec.setWidth_eq]
      refine returns_pure (Or.inl ⟨rfl, hnew, hholds.below, fun v hv _ => hholds.kept v hv, hzero⟩)
    · rw [if_pos hfail]
      exact returns_pure (Or.inr ⟨rfl, hholds.unchanged hmaps⟩)

theorem growproc_shrinks (hn : n.toInt < 0) (hpos : 0 ≤ p.sz.toNat + n.toInt) :
    Returns (growproc L p n) s fun r s' =>
      (r.1 = if p.sz.toNat + n.toInt = 0 then -1 else 0) ∧
      (r.2.sz = if p.sz.toNat + n.toInt = 0 then p.sz else p.sz + n) ∧
      Holds p.pgdir s 0 (pages (p.sz + n).toNat) (pages (p.sz + n).toNat) r.2.pgdir s' := by
  have hnew := toNat_add_of_neg (p := p) hn
  rw [if_pos hpos] at hnew
  have hpages := pages_mono (by omega : (p.sz + n).toNat ≤ p.sz.toNat)
  rw [growproc]
  rw [if_neg (by omega), if_pos hn]
  refine ((Holds.refl hmaps _ s).deallocuvm hs (by omega) hsz rfl hpages le_rfl).bind
    fun r s' hr => ?_
  obtain ⟨hsize, hholds⟩ := hr
  by_cases hzero : p.sz.toNat + n.toInt = 0
  · rw [if_pos (by omega), if_pos hzero, if_pos hzero]
    exact returns_pure ⟨rfl, rfl, hholds⟩
  · rw [if_neg (by omega), if_neg hzero, if_neg hzero, hsize, BitVec.ofNat_toNat,
      BitVec.setWidth_eq]
    exact returns_pure ⟨rfl, rfl, hholds⟩

theorem not_growsOrFails_of_zero (hn : n.toInt < 0)
    (hzero : p.sz.toNat + n.toInt = 0) : ¬ GrowsOrFails L p n s := by
  obtain ⟨r', s'', hr', hcode, -, hholds⟩ := growproc_shrinks hsz hmaps hs hn hzero.ge
  have hnew := toNat_add_of_neg (p := p) hn
  rw [if_pos hzero.ge, hzero] at hnew
  have hpages : pages (p.sz + n).toNat = 0 := by
    rw [Int.natCast_eq_zero.mp hnew]
    rfl
  rintro ⟨r, s', hr, h⟩
  rw [hr'] at hr
  cases hr
  rw [if_pos hzero] at hcode
  rcases h with ⟨hok, -⟩ | ⟨-, hsame⟩
  · rw [hcode] at hok
    exact absurd hok (by decide)
  · -- page 0 was mapped and is not any more
    have hfirst : (p.pgdir.pte 0).Present := by
      refine (hmaps 0 (by decide)).mpr ?_
      simp only [pages, PGSIZE]
      omega
    have hafter := (hholds.below 0 (by decide)).mp ((hsame.mapped 0 (by decide)).mpr hfirst)
    omega

theorem growsOrFails_of_pos (hn : n.toInt < 0)
    (hpos : 0 < p.sz.toNat + n.toInt) : GrowsOrFails L p n s := by
  have hnew := toNat_add_of_neg (p := p) hn
  rw [if_pos hpos.le] at hnew
  have hpages := pages_mono (by omega : (p.sz + n).toNat ≤ p.sz.toNat)
  refine (growproc_shrinks hsz hmaps hs hn hpos.le).mono fun r s' hr => ?_
  rw [if_neg hpos.ne', if_neg hpos.ne'] at hr
  obtain ⟨hcode, hsize, hholds⟩ := hr
  refine Or.inl ⟨hcode, ?_, ?_, ?_, ?_⟩
  · rw [hsize]
    exact hnew
  · rw [hsize]
    exact hholds.below
  · rw [hsize]
    exact fun v _ hv => hholds.kept v hv
  · rw [hsize]
    exact fun v hlow hhigh => by omega

end Sound

theorem growsOrFails_zero (hmaps : MapsBelow p.pgdir (pages p.sz.toNat)) (hn : n.toInt = 0) :
    GrowsOrFails L p n s := by
  rw [GrowsOrFails, growproc, if_neg (by omega), if_neg (by omega)]
  refine returns_pure (Or.inl ⟨rfl, ?_, hmaps, fun _ _ _ => ⟨rfl, rfl⟩, fun v h h' => ?_⟩)
  · change (p.sz.toNat : ℤ) = p.sz.toNat + n.toInt
    omega
  · exact absurd h' (not_lt.mpr h)

theorem growproc_iff (L : Layout) (p : Proc) (n : Word) (s : Machine)
    (hsz : p.sz.toNat ≤ KERNBASE * PGSIZE) (hmaps : MapsBelow p.pgdir (pages p.sz.toNat))
    (hs : Sound L p.pgdir s) :
    GrowsOrFails L p n s ↔ 0 ≤ n.toInt ∨ p.sz = 0 ∨ 0 < p.sz.toNat + n.toInt := by
  rw [← toNat_eq_zero_iff]
  rcases lt_trichotomy n.toInt 0 with hn | hn | hn
  · rcases lt_trichotomy (p.sz.toNat + n.toInt) 0 with hneg | hzero | hpos
    · rw [growsOrFails_below hsz hn hneg, ← toNat_eq_zero_iff]
      omega
    · refine iff_of_false (not_growsOrFails_of_zero hsz hmaps hs hn hzero) ?_
      omega
    · exact iff_of_true (growsOrFails_of_pos hsz hmaps hs hn hpos) (Or.inr (Or.inr hpos))
  · exact iff_of_true (growsOrFails_zero hmaps hn) (Or.inl hn.ge)
  · exact iff_of_true (growproc_grows hsz hmaps hs hn) (Or.inl hn.le)

end Call

def oneProc : Proc := ⟨mapsOne 0, 0x1000⟩

def twoFree : Machine := { emptyMachine with pool := ⟨[0x700, 0x701], []⟩ }

theorem mapsBelow_oneProc : MapsBelow oneProc.pgdir (pages oneProc.sz.toNat) := by
  intro v _
  change ((mapsOne 0).pte v).Present ↔ v < 1
  rw [pte_mapsOne]
  split_ifs with hv
  · exact iff_of_true (by decide) (by omega)
  · exact iff_of_false (by decide) (by omega)

theorem owned_mapsOne : (mapsOne 0).owned = {0x600, 0x601, 0x500} := by
  obtain ⟨k, hk, hpos⟩ : ∃ k, k = KERNBASE ∧ 0 < k := ⟨_, rfl, by decide⟩
  have htables : ∑ i ∈ Finset.range NPDENTRIES, onePage ((mapsOne 0).tablePage i) =
      {0x601} := by
    rw [Finset.sum_eq_single 0]
    · rfl
    · intro i _ hi
      simp [PgDir.tablePage, mapsOne, hi, onePage]
    · intro h
      exact absurd (Finset.mem_range.mpr (by decide)) h
  have hframes : ∑ v ∈ Finset.range k, onePage ((mapsOne 0).pte v).mapped = {0x500} := by
    rw [Finset.sum_eq_single 0]
    · rw [pte_mapsOne]
      rfl
    · intro v _ hv
      rw [pte_mapsOne, if_neg hv, mapped_zero, onePage]
    · intro h
      exact absurd (Finset.mem_range.mpr hpos) h
  rw [PgDir.owned_eq, htables, ← hk, hframes]
  rfl

theorem sound_oneProc : Sound someLayout oneProc.pgdir twoFree := by
  constructor
  · change ((Multiset.ofList [0x700, 0x701]) + (mapsOne 0).owned).Nodup
    rw [owned_mapsOne]
    decide
  · intro p hp
    change p ∈ Multiset.ofList [0x700, 0x701] + (mapsOne 0).owned at hp
    rw [owned_mapsOne] at hp
    have hmem : p ∈ [0x700, 0x701, 0x600, 0x601, 0x500] := hp
    rw [Freeable]
    fin_cases hmem <;> decide

theorem growproc_iff_oneProc : GrowsOrFails someLayout oneProc 0x1000 twoFree :=
  (growproc_iff someLayout oneProc 0x1000 twoFree (by decide) mapsBelow_oneProc
    sound_oneProc).mpr (Or.inl (by decide))

/-- To the size 0 the page goes and the call fails; below it the call succeeds and nothing
happens. -/
theorem not_growproc :
    Returns (growproc someLayout oneProc (-0x1000)) twoFree (fun r _ =>
      r.1 = -1 ∧ r.2.sz = 0x1000 ∧ ¬ (r.2.pgdir.pte 0).Present) ∧
    (growproc someLayout oneProc (-0x2000)).run twoFree = .ok (0, oneProc) twoFree ∧
    ¬ GrowsOrFails someLayout oneProc (-0x1000) twoFree ∧
    ¬ GrowsOrFails someLayout oneProc (-0x2000) twoFree := by
  have hshrink := growproc_shrinks (p := oneProc) (n := -0x1000) (by decide) mapsBelow_oneProc
    sound_oneProc (by decide) (by decide)
  have hbelow := growproc_below (L := someLayout) (p := oneProc) (n := -0x2000) (s := twoFree)
    (by decide) (by decide) (by decide)
  refine ⟨hshrink.mono fun r s' h => ⟨h.1, h.2.1, fun hpresent => ?_⟩, hbelow,
    not_growsOrFails_of_zero (by decide) mapsBelow_oneProc sound_oneProc (by decide) (by decide),
    fun h => ?_⟩
  · exact absurd ((h.2.2.below 0 (by decide)).mp hpresent) (by decide)
  · exact absurd ((growsOrFails_below (by decide) (by decide) (by decide)).mp h) (by decide)

end Xv6Prng.UserSpace
