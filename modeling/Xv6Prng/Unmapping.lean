import Xv6Prng.UserSpace

/-!
# What `deallocuvm` unmaps

Where a page table is absent the loop goes on a table's length further. From the first page of a
table that leads to the first page of the next one. From any other page it leads into the middle
of the next table, and if that one is present then the pages before the middle stay mapped and
are not freed. Once the loop is in a table that is present it misses nothing.
-/

namespace Xv6Prng.UserSpace

open Halting Function

def Skipped (d : PgDir) (a v : ℕ) : Prop :=
  a / NPTENTRIES < v / NPTENTRIES ∧ v % NPTENTRIES < a % NPTENTRIES ∧
    ∀ i < v / NPTENTRIES, a / NPTENTRIES ≤ i → (d.pde i).isNone

instance (d : PgDir) (a v : ℕ) : Decidable (Skipped d a v) :=
  inferInstanceAs (Decidable (_ ∧ _ ∧ _))

def unmapped (d : PgDir) (a e : ℕ) : List ℕ :=
  (List.range' a (e - a)).filter fun v => (d.pte v).Present ∧ ¬ Skipped d a v

def framesOf (d : PgDir) (vs : List ℕ) : List PageNo := vs.map fun v => (d.pte v).frame

def Machine.kfreedAll (s : Machine) (ps : List PageNo) : Machine := ps.foldl Machine.kfreed s

section Loop

variable {d : PgDir} {a e v : ℕ}

theorem mem_unmapped : v ∈ unmapped d a e ↔
    a ≤ v ∧ v < e ∧ (d.pte v).Present ∧ ¬ Skipped d a v := by
  rw [unmapped, List.mem_filter, List.mem_range'_1, decide_eq_true_iff]
  constructor
  · rintro ⟨⟨hav, hve⟩, hrest⟩
    exact ⟨hav, by omega, hrest⟩
  · rintro ⟨hav, hve, hrest⟩
    exact ⟨⟨hav, by omega⟩, hrest⟩

theorem not_skipped_of_hasTable (h : d.HasTable a) : ¬ Skipped d a v := by
  rintro ⟨hlt, -, hnone⟩
  have := hnone (a / NPTENTRIES) hlt le_rfl
  rw [PgDir.HasTable] at h
  simp_all

theorem not_skipped_of_aligned (h : a % NPTENTRIES = 0) : ¬ Skipped d a v := by
  rintro ⟨-, hlt, -⟩
  omega

theorem not_skipped_succ (h : d.HasTable a) : ¬ Skipped d (a + 1) v := by
  by_cases halign : (a + 1) % NPTENTRIES = 0
  · exact not_skipped_of_aligned halign
  · apply not_skipped_of_hasTable
    apply PgDir.hasTable_of_div_eq h
    simp only [NPTENTRIES] at halign ⊢
    omega

theorem skipped_jump (hnone : d.pde (a / NPTENTRIES) = none) (hv : a + NPTENTRIES ≤ v) :
    Skipped d (a + NPTENTRIES) v ↔ Skipped d a v := by
  have hdiv : (a + NPTENTRIES) / NPTENTRIES = a / NPTENTRIES + 1 :=
    Nat.add_div_right a (by decide)
  have hmod : (a + NPTENTRIES) % NPTENTRIES = a % NPTENTRIES := Nat.add_mod_right a _
  rw [Skipped, Skipped, hdiv, hmod]
  constructor
  · rintro ⟨hlt, hoff, hall⟩
    refine ⟨by omega, hoff, fun i hi hai => ?_⟩
    rcases Nat.eq_or_lt_of_le hai with rfl | hlt'
    · simp [hnone]
    · exact hall i hi hlt'
  · rintro ⟨hlt, hoff, hall⟩
    refine ⟨?_, hoff, fun i hi hai => hall i hi (by omega)⟩
    simp only [NPTENTRIES] at hlt hoff hv ⊢
    omega

theorem not_present_or_skipped (hnone : d.pde (a / NPTENTRIES) = none) (hav : a ≤ v)
    (hv : v < a + NPTENTRIES) : ¬ ((d.pte v).Present ∧ ¬ Skipped d a v) := by
  rintro ⟨hpresent, hnot⟩
  have htable := PgDir.hasTable_of_present hpresent
  by_cases hdiv : v / NPTENTRIES = a / NPTENTRIES
  · rw [PgDir.HasTable, hdiv, hnone] at htable
    exact Bool.false_ne_true htable
  · refine hnot ⟨?_, ?_, fun i hi hai => ?_⟩
    · simp only [NPTENTRIES] at hdiv hv ⊢
      omega
    · simp only [NPTENTRIES] at hdiv hv ⊢
      omega
    · have hi' : i = a / NPTENTRIES := by
        simp only [NPTENTRIES] at hdiv hv hi hai ⊢
        omega
      simp [hi', hnone]

theorem filter_range'_drop {p : ℕ → Bool} {b : ℕ} (hab : a ≤ b)
    (h : ∀ v, a ≤ v → v < b → p v = false) :
    (List.range' a (e - a)).filter p = (List.range' b (e - b)).filter p := by
  obtain ⟨k, rfl⟩ := Nat.exists_eq_add_of_le hab
  induction k generalizing a with
  | zero => rfl
  | succ k ih =>
    rcases Nat.lt_or_ge a e with hae | hae
    · have hlen : e - a = (e - (a + 1)) + 1 := by omega
      rw [hlen, List.range'_succ, List.filter_cons_of_neg (by simp [h a le_rfl (by omega)])]
      rw [ih (by omega) fun v hv hvb => h v (by omega) (by omega), Nat.add_right_comm]
      rfl
    · rw [Nat.sub_eq_zero_of_le hae, Nat.sub_eq_zero_of_le (by omega)]
      rfl

theorem unmapped_of_le (h : e ≤ a) : unmapped d a e = [] := by
  rw [unmapped, Nat.sub_eq_zero_of_le h]
  rfl

theorem unmapped_jump (hnone : d.pde (a / NPTENTRIES) = none) :
    unmapped d a e = unmapped d (a + NPTENTRIES) e := by
  rw [unmapped, unmapped, filter_range'_drop (Nat.le_add_right a NPTENTRIES)]
  · refine List.filter_congr fun v hv => ?_
    rw [List.mem_range'_1] at hv
    simp only [skipped_jump hnone hv.1]
  · intro v hav hv
    exact decide_eq_false (not_present_or_skipped hnone hav hv)

theorem unmapped_absent (htable : d.HasTable a) (h : ¬ (d.pte a).Present) :
    unmapped d a e = unmapped d (a + 1) e := by
  rw [unmapped, unmapped, filter_range'_drop (Nat.le_succ a)]
  · refine List.filter_congr fun v _ => ?_
    simp only [not_skipped_of_hasTable htable, not_skipped_succ htable]
  · intro v hav hv
    obtain rfl : v = a := by omega
    simp [h]

theorem skipped_setPte {x : Pte} : Skipped (d.setPte v x) a e ↔ Skipped d a e := by
  simp only [Skipped, Option.isNone_iff_eq_none, ← Option.not_isSome_iff_eq_none,
    PgDir.isSome_pde_setPte]

theorem unmapped_present (hae : a < e) (h : (d.pte a).Present) :
    unmapped d a e = a :: unmapped (d.setPte a .zero) (a + 1) e := by
  have htable := PgDir.hasTable_of_present h
  have hlen : e - a = (e - (a + 1)) + 1 := by omega
  rw [unmapped, hlen, List.range'_succ, List.filter_cons_of_pos]
  · rw [unmapped]
    congr 1
    refine List.filter_congr fun v hv => ?_
    rw [List.mem_range'_1] at hv
    have hne : v ≠ a := by omega
    simp only [PgDir.pte_setPte htable, update_of_ne hne, skipped_setPte,
      not_skipped_of_hasTable htable, not_skipped_succ htable]
  · exact decide_eq_true ⟨h, not_skipped_of_hasTable htable⟩

theorem framesOf_setPte (h : d.HasTable a) {vs : List ℕ} (hvs : a ∉ vs) (x : Pte) :
    framesOf (d.setPte a x) vs = framesOf d vs := by
  refine List.map_congr_left fun v hv => ?_
  have hne : v ≠ a := fun heq => hvs (heq ▸ hv)
  rw [PgDir.pte_setPte h, update_of_ne hne]

theorem deallocLoop_run (L : Layout) {fuel : ℕ} (hfuel : e ≤ a + fuel) (d : PgDir) (s : Machine)
    (hfree : ∀ v ∈ unmapped d a e, Freeable L (d.pte v).frame) :
    ∃ d', (deallocLoop L e fuel a d).run s =
        .ok d' (s.kfreedAll (framesOf d (unmapped d a e))) ∧
      (∀ v, d'.pte v = if v ∈ unmapped d a e then .zero else d.pte v) ∧
      (e ≤ KERNBASE → d.owned = d'.owned + ↑(framesOf d (unmapped d a e))) := by
  induction fuel generalizing a d s with
  | zero =>
    rw [unmapped_of_le (by omega)]
    exact ⟨d, rfl, fun v => by simp, fun _ => (add_zero _).symm⟩
  | succ fuel ih =>
    rw [deallocLoop]
    by_cases hae : a < e
    swap
    · rw [if_neg hae, unmapped_of_le (by omega)]
      exact ⟨d, rfl, fun v => by simp, fun _ => (add_zero _).symm⟩
    rw [if_pos hae]
    split
    · rename_i hnone
      rw [unmapped_jump hnone] at hfree ⊢
      exact ih (by simp only [NPTENTRIES]; omega) d s hfree
    · rename_i t ht
      have htable : d.HasTable a := by simp [PgDir.HasTable, ht]
      by_cases hpresent : (d.pte a).Present
      · rw [unmapped_present hae hpresent] at hfree ⊢
        have hfirst := hfree a List.mem_cons_self
        have hrest : a ∉ unmapped (d.setPte a .zero) (a + 1) e := fun hmem => by
          have := (mem_unmapped.mp hmem).1
          omega
        have hpte : ∀ v ≠ a, (d.setPte a .zero).pte v = d.pte v := fun v hv => by
          rw [PgDir.pte_setPte htable, update_of_ne hv]
        rw [if_pos hpresent, if_neg hfirst.2.2, bind_ok (kfree_run hfirst s)]
        obtain ⟨d', hrun, hd', howned⟩ := ih (a := a + 1) (by omega) (d.setPte a .zero)
          (s.kfreed (d.pte a).frame) fun v hv => by
            rw [hpte v fun heq => hrest (heq ▸ hv)]
            exact hfree v (List.mem_cons_of_mem _ hv)
        rw [framesOf_setPte htable hrest] at hrun howned
        refine ⟨d', hrun, fun v => ?_, fun he => ?_⟩
        · rw [hd' v]
          by_cases hva : v = a
          · subst hva
            rw [if_neg hrest, if_pos List.mem_cons_self, PgDir.pte_setPte htable,
              update_self]
          · simp only [List.mem_cons, hva, false_or, hpte v hva]
        · have hset := PgDir.owned_setPte (e := .zero) htable (hae.trans_le he)
          rw [mapped_of_present hpresent, mapped_zero, onePage, onePage, add_zero] at hset
          rw [← hset, howned he, framesOf, framesOf, List.map_cons, coe_cons, add_assoc]
      · rw [if_neg hpresent]
        rw [unmapped_absent htable hpresent] at hfree ⊢
        exact ih (by omega) d s hfree

end Loop

section Call

variable {L : Layout} {d : PgDir} {oldsz newsz : ℕ} {s : Machine}

def InRange (newsz oldsz v : ℕ) : Prop := pages newsz * PGSIZE ≤ v * PGSIZE ∧ v * PGSIZE < oldsz

instance (v : ℕ) : Decidable (InRange newsz oldsz v) := inferInstanceAs (Decidable (_ ∧ _))

theorem inRange_iff {v : ℕ} : InRange newsz oldsz v ↔ pages newsz ≤ v ∧ v < pages oldsz := by
  simp only [InRange, pages, PGSIZE]
  omega

def mappedFrames (d : PgDir) (newsz oldsz : ℕ) : List PageNo :=
  framesOf d ((List.range' (pages newsz) (pages oldsz - pages newsz)).filter fun v =>
    (d.pte v).Present)

/-- Nothing is mapped in the range any more, every page that was has been freed once, and every
other entry is as before. -/
def Unmaps (L : Layout) (d : PgDir) (oldsz newsz : ℕ) (s : Machine) : Prop :=
  Returns (deallocuvm L d oldsz newsz) s fun r s' =>
    (∀ v, InRange newsz oldsz v → ¬ (r.1.pte v).Present) ∧
    s'.freed = s.freed ++ mappedFrames d newsz oldsz ∧
    ∀ v, ¬ InRange newsz oldsz v → r.1.pte v = d.pte v

theorem freed_kfreedAll (s : Machine) (ps : List PageNo) :
    (s.kfreedAll ps).freed = s.freed ++ ps := by
  induction ps generalizing s with
  | nil => exact (List.append_nil _).symm
  | cons p ps ih =>
    rw [Machine.kfreedAll, List.foldl_cons]
    exact (ih (s.kfreed p)).trans (List.append_assoc s.freed [p] ps)

theorem deallocuvm_run (hlt : newsz < oldsz)
    (hfree : ∀ v ∈ unmapped d (pages newsz) (pages oldsz), Freeable L (d.pte v).frame) :
    ∃ d', (deallocuvm L d oldsz newsz).run s = .ok (d', newsz)
        (s.kfreedAll (framesOf d (unmapped d (pages newsz) (pages oldsz)))) ∧
      (∀ v, d'.pte v =
        if v ∈ unmapped d (pages newsz) (pages oldsz) then .zero else d.pte v) ∧
      (pages oldsz ≤ KERNBASE →
        d.owned = d'.owned + ↑(framesOf d (unmapped d (pages newsz) (pages oldsz)))) := by
  obtain ⟨d', hrun, hd'⟩ := deallocLoop_run L (Nat.le_add_left _ _) d s hfree
  refine ⟨d', ?_, hd'⟩
  rw [deallocuvm, if_neg (by omega), bind_ok hrun]
  rfl

theorem deallocuvm_unmaps_iff (L : Layout) (d : PgDir) (s : Machine) (oldsz newsz : ℕ)
    (hlt : newsz < oldsz)
    (hfree : ∀ v, InRange newsz oldsz v → (d.pte v).Present → Freeable L (d.pte v).frame) :
    Unmaps L d oldsz newsz s ↔
      ∀ v, InRange newsz oldsz v → Skipped d (pages newsz) v → ¬ (d.pte v).Present := by
  obtain ⟨d', hrun, hd', -⟩ := deallocuvm_run (L := L) (s := s) hlt fun v hv => by
    obtain ⟨hav, hve, hpresent, -⟩ := mem_unmapped.mp hv
    exact hfree v (inRange_iff.mpr ⟨hav, hve⟩) hpresent
  constructor
  · rintro ⟨r, s', hr, hclear, -, -⟩ v hv hskip hpresent
    rw [hrun] at hr
    cases hr
    refine hclear v hv ?_
    rw [hd' v, if_neg fun hmem => (mem_unmapped.mp hmem).2.2.2 hskip]
    exact hpresent
  · intro hnone
    have hmem : ∀ v, v ∈ unmapped d (pages newsz) (pages oldsz) ↔
        InRange newsz oldsz v ∧ (d.pte v).Present := by
      intro v
      rw [mem_unmapped, inRange_iff]
      constructor
      · rintro ⟨hav, hve, hpresent, -⟩
        exact ⟨⟨hav, hve⟩, hpresent⟩
      · rintro ⟨⟨hav, hve⟩, hpresent⟩
        exact ⟨hav, hve, hpresent, fun h => hnone v (inRange_iff.mpr ⟨hav, hve⟩) h hpresent⟩
    refine ⟨_, _, hrun, fun v hv => ?_, ?_, fun v hv => ?_⟩
    · rw [hd' v]
      split_ifs with h
      · decide
      · exact fun hpresent => h ((hmem v).mpr ⟨hv, hpresent⟩)
    · rw [freed_kfreedAll, mappedFrames, unmapped]
      congr 2
      refine List.filter_congr fun v hv => ?_
      rw [List.mem_range'_1] at hv
      have hrange : InRange newsz oldsz v := inRange_iff.mpr ⟨hv.1, by omega⟩
      exact decide_eq_decide.mpr ⟨fun h => h.1, fun h => ⟨h, fun hs => hnone v hrange hs h⟩⟩
    · rw [hd' v, if_neg fun h => hv ((hmem v).mp h).1]

end Call

def someLayout : Layout := ⟨0x300, 0x400, by decide, by decide⟩

def mapsOne (v : ℕ) : PgDir where
  page := 0x600
  pde i := if i = v / NPTENTRIES then
      some ⟨0x601, fun j => if j = v % NPTENTRIES then ⟨0x500, 7⟩ else .zero⟩
    else none

theorem pte_mapsOne (v u : ℕ) : (mapsOne v).pte u = if u = v then ⟨0x500, 7⟩ else .zero := by
  simp only [PgDir.pte, mapsOne, NPTENTRIES]
  by_cases hdiv : u / 1024 = v / 1024
  · rw [if_pos hdiv]
    by_cases hmod : u % 1024 = v % 1024
    · simp only [hmod, if_true]
      rw [if_pos (by omega)]
    · simp only [hmod, if_false]
      rw [if_neg fun h : u = v => hmod (h ▸ rfl)]
  · rw [if_neg hdiv, if_neg fun h : u = v => hdiv (h ▸ rfl)]

theorem freeable_mapsOne {v u : ℕ} (h : ((mapsOne v).pte u).Present) :
    Freeable someLayout ((mapsOne v).pte u).frame := by
  rw [pte_mapsOne] at h ⊢
  split_ifs with hu
  · exact ⟨by decide, by decide, by decide⟩
  · rw [if_neg hu] at h
    exact absurd h (by decide)

theorem deallocuvm_unmaps_mapsOne :
    Unmaps someLayout (mapsOne 1024) (2048 * PGSIZE) 0 emptyMachine :=
  (deallocuvm_unmaps_iff someLayout (mapsOne 1024) emptyMachine (2048 * PGSIZE) 0 (by decide)
    fun _ _ h => freeable_mapsOne h).mpr fun _ _ h => absurd h (not_skipped_of_aligned rfl)

/-- From page 1 on, with no first table, the loop comes to page 1025 and misses page 1024. -/
theorem not_deallocuvm_unmaps :
    InRange PGSIZE (1025 * PGSIZE) 1024 ∧ Skipped (mapsOne 1024) 1 1024 ∧
    Returns (deallocuvm someLayout (mapsOne 1024) (1025 * PGSIZE) PGSIZE) emptyMachine
      (fun r s' => (r.1.pte 1024).Present ∧ s'.freed = []) ∧
    ¬ Unmaps someLayout (mapsOne 1024) (1025 * PGSIZE) PGSIZE emptyMachine := by
  have hrun : Returns (deallocuvm someLayout (mapsOne 1024) (1025 * PGSIZE) PGSIZE) emptyMachine
      (fun r s' => decide ((r.1.pte 1024).Present ∧ s'.freed = []) = true) :=
    returns_of_returnsWith (by decide +kernel)
  have hrange : InRange PGSIZE (1025 * PGSIZE) 1024 := by decide
  refine ⟨hrange, by decide, hrun.mono fun _ _ h => of_decide_eq_true h, ?_⟩
  rintro ⟨r, s', hr, hclear, -⟩
  obtain ⟨r', s'', hr', h⟩ := hrun
  rw [hr] at hr'
  cases hr'
  exact hclear 1024 hrange (of_decide_eq_true h).1

end Xv6Prng.UserSpace
