import Xv6Prng.CopyOut
import Xv6Prng.GrowProc

/-!
# `copyuvm` copies an address space

The pages of the child come from the free list one after another, and none of them is a page of
the parent. So what is written in one of the two spaces later cannot be seen in the other.
`copyuvm` does succeed when there is enough memory: a page for the directory, one for each page
table and one for each page of the parent.
-/

namespace Xv6Prng.UserSpace

open Halting Function

def writeAll (d : PgDir) (mem : PageNo → Page) (ws : List (Word × Byte)) : PageNo → Page :=
  ws.foldl (fun mem w =>
    if pageOf w.1 < KERNBASE ∧ (d.pte (pageOf w.1)).Present then store d mem w.1 w.2 else mem) mem

def Apart (d d' : PgDir) : Prop :=
  ∀ u < KERNBASE, ∀ v < KERNBASE, (d.pte u).Present → (d'.pte v).Present →
    (d.pte u).frame ≠ (d'.pte v).frame

theorem Apart.writeAll {d d' : PgDir} (h : Apart d d') (mem : PageNo → Page)
    (ws : List (Word × Byte)) {v : ℕ} (hv : v < KERNBASE) (hpresent : (d'.pte v).Present) :
    writeAll d mem ws (d'.pte v).frame = mem (d'.pte v).frame := by
  induction ws generalizing mem with
  | nil => rfl
  | cons w ws ih =>
    rw [UserSpace.writeAll, List.foldl_cons]
    refine (ih _).trans ?_
    split_ifs with hw
    · exact update_of_ne (h _ hw.1 v hv hw.2 hpresent).symm _ _
    · rfl

/-- The child has the addresses, flags and contents of the parent in pages that are not pages of
the parent, and writes in one of them leave the other as it is, in every later memory. -/
structure CopyOf (parent child : PgDir) (s s' : Machine) : Prop where
  mapped : ∀ v < KERNBASE, (child.pte v).Present ↔ (parent.pte v).Present
  flags : ∀ v < KERNBASE, (parent.pte v).Present → (child.pte v).flags = (parent.pte v).flags
  contents : ∀ v < KERNBASE, (parent.pte v).Present →
    s'.mem (child.pte v).frame = s.mem (parent.pte v).frame ∧
    s'.mem (parent.pte v).frame = s.mem (parent.pte v).frame
  disjoint : ∀ v < KERNBASE, (child.pte v).Present → (child.pte v).frame ∉ parent.owned
  parentWrites : ∀ mem ws, ∀ v < KERNBASE, (child.pte v).Present →
    writeAll parent mem ws (child.pte v).frame = mem (child.pte v).frame
  childWrites : ∀ mem ws, ∀ v < KERNBASE, (parent.pte v).Present →
    writeAll child mem ws (parent.pte v).frame = mem (parent.pte v).frame

theorem ends_true {α : Type} (x : M α) (s : Machine) :
    Ends x s (fun _ _ => True) fun _ _ => True := by
  rw [Ends]
  split <;> trivial

variable {ks : List (ℕ × ℕ × PageNo × Flags)}

section Kernel

variable {d : PgDir} {v : ℕ}

theorem mappages_user {n : ℕ} (hv : KERNBASE ≤ v) (pa : PageNo) (perm : Flags) (d : PgDir)
    (s : Machine) :
    Ends (mappages n v pa perm d) s
      (fun r s' => Takes s s' ∧ ∀ u < KERNBASE, r.1.pte u = d.pte u) fun _ _ => True := by
  induction n generalizing v pa d s with
  | zero => exact ends_pure ⟨.refl s, fun _ _ => rfl⟩
  | succ n ih =>
    rw [mappages]
    refine (walkpgdir_returns d v s).ends.bind fun r s₁ hr => ?_
    obtain ⟨htakes, -, hsome⟩ := hr
    cases r with
    | none => exact ends_pure ⟨htakes, fun _ _ => rfl⟩
    | some d' =>
      obtain ⟨hpte, htable, -⟩ := hsome d' rfl
      dsimp only
      split_ifs
      · exact ends_throw trivial
      · refine (ih (by omega) (pa + 1) _ s₁).mono (fun r s₂ hr => ?_) fun _ _ h => h
        refine ⟨htakes.trans hr.1, fun u hu => ?_⟩
        rw [hr.2 u hu, PgDir.pte_setPte htable, update_of_ne (by omega), hpte]

theorem mapKernel_user (hks : ∀ k ∈ ks, KERNBASE ≤ k.1) (d : PgDir) (s : Machine) :
    Ends (mapKernel ks d) s
      (fun r s' => ∀ d', r = some d' → Takes s s' ∧ ∀ u < KERNBASE, d'.pte u = d.pte u)
      fun _ _ => True := by
  induction ks generalizing d s with
  | nil =>
    refine ends_pure fun d' hd => ?_
    cases hd
    exact ⟨.refl s, fun _ _ => rfl⟩
  | cons k ks ih =>
    refine (mappages_user (hks k List.mem_cons_self) _ _ d s).bind fun r s₁ hr => ?_
    split_ifs
    · refine (ih (fun k hk => hks k (List.mem_cons_of_mem _ hk)) r.1 s₁).mono
        (fun r' s₂ h d' hd => ?_) fun _ _ h => h
      obtain ⟨htakes, hpte⟩ := h d' hd
      exact ⟨hr.1.trans htakes, fun u hu => (hpte u hu).trans (hr.2 u hu)⟩
    · exact ends_pure fun d' hd => by cases hd

theorem kmap_ge (L : Layout) : ∀ k ∈ kmap L, KERNBASE ≤ k.1 := by
  simp only [kmap, List.mem_cons, List.not_mem_nil, or_false, forall_eq_or_imp, forall_eq,
    KERNBASE, EXTMEM, PHYSTOP, DEVSPACE]
  omega

theorem pte_empty (p : PageNo) (u : ℕ) : (⟨p, fun _ => none⟩ : PgDir).pte u = .zero := rfl

theorem setupkvm_user (L : Layout) (s : Machine) :
    Ends (setupkvm L) s
      (fun r s' => ∀ d, r = some d → Takes s s' ∧ ∀ u < KERNBASE, d.pte u = .zero)
      fun _ _ => True := by
  refine (kalloc_returns s).ends.bind fun r s₁ hr => ?_
  obtain ⟨hmem, hfreed, ⟨rfl, hlist⟩ | ⟨p, rfl, hlist⟩⟩ := hr
  · exact ends_pure fun d hd => by cases hd
  · refine (mapKernel_user (kmap_ge L) ⟨p, fun _ => none⟩ s₁).mono (fun r s₂ h d hd => ?_)
      fun _ _ h => h
    obtain ⟨htakes, hpte⟩ := h d hd
    refine ⟨Takes.trans ⟨hmem, hfreed, ?_⟩ htakes, fun u hu => (hpte u hu).trans (pte_empty p u)⟩
    rw [hlist]
    exact List.suffix_cons p _

end Kernel

structure Copying (parent : PgDir) (s₀ : Machine) (i : ℕ) (d : PgDir) (s : Machine) : Prop where
  below : MapsBelow d i
  flags : ∀ v < i, (d.pte v).flags = (parent.pte v).flags
  contents : ∀ v < i, s.mem (d.pte v).frame = s₀.mem (parent.pte v).frame
  fresh : ∀ v < i, (d.pte v).frame ∈ s₀.pool.freelist ∧ (d.pte v).frame ∉ s.pool.freelist
  freelist : s.pool.freelist <:+ s₀.pool.freelist
  others : ∀ p ∉ s₀.pool.freelist, s.mem p = s₀.mem p

theorem getLsbD_PTE_P {i : ℕ} (h : 0 < i) : PTE_P.getLsbD i = false := by
  rw [show PTE_P = 1#12 from rfl, BitVec.getLsbD_one]
  simp [h.ne']

theorem getLsbD_of_present {e : Pte} (h : e.Present) : e.flags.getLsbD 0 = true := by
  by_contra hnot
  apply h
  ext i hi
  rcases Nat.eq_zero_or_pos i with rfl | hpos
  · simpa using hnot
  · simp only [← BitVec.getLsbD_eq_getElem, BitVec.getLsbD_and, getLsbD_PTE_P hpos]
    simp

theorem flags_or_present {e : Pte} (h : e.Present) : e.flags ||| PTE_P = e.flags := by
  ext i hi
  rcases Nat.eq_zero_or_pos i with rfl | hpos
  · simp only [← BitVec.getLsbD_eq_getElem, BitVec.getLsbD_or, getLsbD_of_present h, Bool.true_or]
  · simp only [← BitVec.getLsbD_eq_getElem, BitVec.getLsbD_or, getLsbD_PTE_P hpos, Bool.or_false]

section Loop

variable {L : Layout} {parent d : PgDir} {s₀ s : Machine} {i k : ℕ}

theorem Copying.step (h : Copying parent s₀ i d s) (hnodup : s₀.pool.freelist.Nodup)
    (hparent : (parent.pte i).Present) (hapart : (parent.pte i).frame ∉ s₀.pool.freelist)
    {p : PageNo} {d' : PgDir} {s' : Machine} {f : List PageNo}
    (hlist : s.pool.freelist = p :: f) (htail : s'.pool.freelist <:+ f)
    (hmem : s'.mem = update s.mem p (s.mem (parent.pte i).frame))
    (hpte : d'.pte = update d.pte i ⟨p, (parent.pte i).flags ||| PTE_P⟩) :
    Copying parent s₀ (i + 1) d' s' := by
  have hp : p ∈ s.pool.freelist := hlist ▸ List.mem_cons_self
  have hp₀ : p ∈ s₀.pool.freelist := h.freelist.subset hp
  have hcons := hnodup.sublist h.freelist.sublist
  rw [hlist] at hcons
  have hnot : p ∉ s'.pool.freelist := fun hin =>
    (List.nodup_cons.mp hcons).1 (htail.subset hin)
  have hsuffix : s'.pool.freelist <:+ s.pool.freelist :=
    htail.trans (hlist ▸ List.suffix_cons p f)
  have hold : ∀ v < i, (d.pte v).frame ≠ p := fun v hv heq => (h.fresh v hv).2 (heq ▸ hp)
  have hcases : ∀ v < i + 1, v = i ∧ d'.pte v = ⟨p, (parent.pte i).flags ||| PTE_P⟩ ∨
      v < i ∧ d'.pte v = d.pte v := by
    intro v hv
    rw [hpte]
    by_cases hvi : v = i
    · exact Or.inl ⟨hvi, by rw [hvi, update_self]⟩
    · exact Or.inr ⟨by omega, update_of_ne hvi _ _⟩
  refine ⟨fun v hv => ?_, fun v hv => ?_, fun v hv => ?_, fun v hv => ?_, ?_, fun q hq => ?_⟩
  · rw [hpte]
    by_cases hvi : v = i
    · rw [hvi, update_self]
      exact iff_of_true (present_or p _) (Nat.lt_succ_self i)
    · rw [update_of_ne hvi, h.below v hv]
      omega
  · rcases hcases v hv with ⟨rfl, he⟩ | ⟨hvi, he⟩
    · rw [he]
      exact flags_or_present hparent
    · rw [he]
      exact h.flags v hvi
  · rw [hmem]
    rcases hcases v hv with ⟨rfl, he⟩ | ⟨hvi, he⟩
    · rw [he, update_self]
      exact h.others _ hapart
    · rw [he, update_of_ne (hold v hvi)]
      exact h.contents v hvi
  · rcases hcases v hv with ⟨rfl, he⟩ | ⟨hvi, he⟩
    · rw [he]
      exact ⟨hp₀, hnot⟩
    · rw [he]
      exact ⟨(h.fresh v hvi).1, fun hin => (h.fresh v hvi).2 (hsuffix.subset hin)⟩
  · exact hsuffix.trans h.freelist
  · have hne : q ≠ p := fun heq => hq (heq ▸ hp₀)
    rw [hmem, update_of_ne hne]
    exact h.others q hq

theorem Copying.copyLoop (hnodup : s₀.pool.freelist.Nodup)
    (hparent : ∀ v < k, (parent.pte v).Present ∧ (parent.pte v).frame ∉ s₀.pool.freelist)
    (hk : k ≤ KERNBASE) {n : ℕ} (hn : i + n = k) (h : Copying parent s₀ i d s) :
    Ends (copyLoop L parent n i d) s
      (fun r s' => ∀ child, r = some child → Copying parent s₀ k child s') fun _ _ => True := by
  induction n generalizing i d s with
  | zero =>
    obtain rfl : i = k := by omega
    refine ends_pure fun child hc => ?_
    cases hc
    exact h
  | succ n ih =>
    obtain ⟨hpresent, hapart⟩ := hparent i (by omega)
    have hnot : ¬ (d.pte i).Present := fun hp => by
      have := (h.below i (by omega)).mp hp
      omega
    obtain ⟨t, ht⟩ := Option.isSome_iff_exists.mp (PgDir.hasTable_of_present hpresent)
    rw [UserSpace.copyLoop, ht]
    dsimp only
    rw [if_pos hpresent]
    refine (kalloc_returns s).ends.bind fun r s₁ hr => ?_
    obtain ⟨hmem, -, ⟨rfl, -⟩ | ⟨p, rfl, hlist⟩⟩ := hr
    · exact (ends_true _ s₁).bind fun _ _ _ => ends_pure fun child hc => by cases hc
    · refine ends_get_bind (ends_modify_bind ?_)
      refine (mappages_returns (by omega) hnot p (parent.pte i).flags _).ends.bind fun r s₂ hmap => ?_
      obtain ⟨htakes, -, hok⟩ := hmap
      split_ifs with hr
      · refine ih (by omega) (h.step hnodup hpresent hapart hlist htakes.freelist ?_ (hok hr).1)
        rw [htakes.mem, hmem]
      · refine (ends_true _ _).bind fun _ _ _ => ends_pure fun child hc => ?_
        cases hc

theorem Copying.copyOf (h : Copying parent s₀ k d s) (hmaps : MapsBelow parent k)
    (hs : Sound L parent s₀) : CopyOf parent d s₀ s := by
  have hfree : ∀ v < KERNBASE, (d.pte v).Present → (d.pte v).frame ∉ parent.owned := by
    intro v hv hpresent hin
    have hmem := (h.fresh v ((h.below v hv).mp hpresent)).1
    exact Multiset.disjoint_left.mp (Multiset.nodup_add.mp hs.nodup).2.2 hmem hin
  have hapart : Apart parent d := fun u hu v hv hpu hpv heq =>
    hfree v hv hpv (heq ▸ frame_mem_owned hu hpu)
  have hlow : ∀ v < KERNBASE, (parent.pte v).Present → v < k := fun v hv => (hmaps v hv).mp
  refine ⟨fun v hv => (h.below v hv).trans (hmaps v hv).symm,
    fun v hv hp => h.flags v (hlow v hv hp), fun v hv hp => ⟨h.contents v (hlow v hv hp), ?_⟩,
    hfree, fun mem ws v hv hp => hapart.writeAll mem ws hv hp, fun mem ws v hv hp => ?_⟩
  · apply h.others
    intro hin
    exact Multiset.disjoint_left.mp (Multiset.nodup_add.mp hs.nodup).2.2 hin
      (frame_mem_owned hv hp)
  · have hapart' : Apart d parent := fun u hu v hv hpu hpv heq =>
      hapart v hv u hu hpv hpu heq.symm
    exact hapart'.writeAll mem ws hv hp

end Loop

/-- For every parent of size `sz`: a `copyuvm` that succeeds makes a copy that shares nothing
with the parent. -/
theorem copyuvm_copies (L : Layout) (parent : PgDir) (sz : ℕ) (s : Machine)
    (hsz : sz ≤ KERNBASE * PGSIZE) (hmaps : MapsBelow parent (pages sz))
    (hs : Sound L parent s) :
    Ends (copyuvm L parent sz) s
      (fun r s' => ∀ child, r = some child → CopyOf parent child s s') fun _ _ => True := by
  have hk := pages_le hsz
  have hdisjoint := (Multiset.nodup_add.mp hs.nodup).2.2
  have hnodup : s.pool.freelist.Nodup := Multiset.coe_nodup.mp (Multiset.nodup_add.mp hs.nodup).1
  have hparent : ∀ v < pages sz, (parent.pte v).Present ∧
      (parent.pte v).frame ∉ s.pool.freelist := by
    intro v hv
    have hpresent := (hmaps v (by omega)).mpr hv
    exact ⟨hpresent, fun hin => Multiset.disjoint_left.mp hdisjoint hin
      (frame_mem_owned (by omega) hpresent)⟩
  rw [copyuvm]
  refine (setupkvm_user L s).bind fun r s₁ hr => ?_
  cases r with
  | none => exact ends_pure fun child hc => by cases hc
  | some d =>
    obtain ⟨htakes, hempty⟩ := hr d rfl
    have hstart : Copying parent s 0 d s₁ := by
      refine ⟨fun v hv => ?_, fun v hv => absurd hv (Nat.not_lt_zero v),
        fun v hv => absurd hv (Nat.not_lt_zero v), fun v hv => absurd hv (Nat.not_lt_zero v),
        htakes.freelist, fun p _ => by rw [htakes.mem]⟩
      rw [hempty v hv]
      exact iff_of_false (by decide) (Nat.not_lt_zero v)
    refine (Copying.copyLoop hnodup hparent hk (Nat.zero_add _) hstart).mono
      (fun r' s' h child hc => ?_) fun _ _ h => h
    exact (h child hc).copyOf hmaps hs

def PgDir.absent (d : PgDir) : ℕ := ((Finset.range NPDENTRIES).filter fun i => d.pde i = none).card

/-- `kalloc` fails for no other reason than an empty list, and there is a page for every table
and `k` more. -/
structure Enough (k : ℕ) (d : PgDir) (s : Machine) : Prop where
  faults : s.pool.faults = []
  pages : d.absent + k ≤ s.pool.freelist.length

section Enough

variable {L : Layout} {d parent : PgDir} {s : Machine} {k v : ℕ}

theorem absent_setPde {i : ℕ} (hi : i < NPDENTRIES) (hnone : d.pde i = none) (t : Table) :
    (d.setPde i t).absent + 1 = d.absent := by
  have herase : ((Finset.range NPDENTRIES).filter fun j => (d.setPde i t).pde j = none) =
      ((Finset.range NPDENTRIES).filter fun j => d.pde j = none).erase i := by
    ext j
    rw [Finset.mem_erase, Finset.mem_filter, Finset.mem_filter]
    by_cases hj : j = i
    · subst hj
      simp [PgDir.setPde]
    · simp [PgDir.setPde, hj]
  rw [PgDir.absent, PgDir.absent, herase]
  exact Finset.card_erase_add_one (Finset.mem_filter.mpr ⟨Finset.mem_range.mpr hi, hnone⟩)

theorem absent_setPte (e : Pte) : (d.setPte v e).absent = d.absent := by
  have hsame : ∀ i, (d.setPte v e).pde i = none ↔ d.pde i = none := fun i => by
    rw [← Option.not_isSome_iff_eq_none, ← Option.not_isSome_iff_eq_none,
      PgDir.isSome_pde_setPte]
  simp only [PgDir.absent, hsame]

theorem kalloc_some (hfaults : s.pool.faults = []) (hfree : 0 < s.pool.freelist.length) :
    Returns kalloc s fun r s' => ∃ p, r = some p ∧ s'.pool.faults = [] ∧
      s.pool.freelist = p :: s'.pool.freelist := by
  obtain ⟨p, free, hlist⟩ := List.exists_cons_of_length_pos hfree
  refine returns_get_bind ?_
  rw [hfaults, if_neg (by decide), hlist]
  exact ⟨_, _, rfl, p, rfl, rfl, rfl⟩

theorem Enough.walkpgdir (h : Enough k d s) (hv : v < 2 ^ 20) :
    Returns (walkpgdir d v true) s fun r s' => ∃ d', r = some d' ∧ Enough k d' s' ∧
      d'.pte = d.pte ∧ d'.HasTable v := by
  rw [UserSpace.walkpgdir]
  split
  · rename_i t ht
    exact returns_pure ⟨d, rfl, h, rfl, by simp [PgDir.HasTable, ht]⟩
  · rename_i hnone
    have hi : v / NPTENTRIES < NPDENTRIES := by
      simp only [NPTENTRIES, NPDENTRIES]
      omega
    have hpages := h.pages
    rw [if_pos rfl]
    have hone := fun t => absent_setPde hi hnone t
    refine (kalloc_some h.faults (by have := hone ⟨0, fun _ => .zero⟩; omega)).bind
      fun r s₁ hr => ?_
    obtain ⟨p, rfl, hfaults, hlist⟩ := hr
    refine returns_pure ⟨_, rfl, ⟨hfaults, ?_⟩, PgDir.pte_setPde hnone,
      PgDir.hasTable_setPde.mpr (Or.inl rfl)⟩
    have := hone ⟨p, fun _ => .zero⟩
    rw [hlist, List.length_cons] at hpages
    change PgDir.absent _ + k ≤ s₁.pool.freelist.length
    omega

theorem Enough.mappages {n : ℕ} (h : Enough k d s) (hn : v + n ≤ 2 ^ 20)
    (hnone : ∀ u, v ≤ u → u < v + n → ¬ (d.pte u).Present) (pa : PageNo) (perm : Flags) :
    Returns (mappages n v pa perm d) s fun r s' => r.2 = true ∧ Enough k r.1 s' ∧
      ∀ u, u < v ∨ v + n ≤ u → r.1.pte u = d.pte u := by
  induction n generalizing v pa d s with
  | zero => exact returns_pure ⟨rfl, h, fun _ _ => rfl⟩
  | succ n ih =>
    rw [UserSpace.mappages]
    refine (h.walkpgdir (by omega)).bind fun r s₁ hr => ?_
    obtain ⟨d', rfl, henough, hpte, htable⟩ := hr
    dsimp only
    rw [if_neg (by rw [hpte]; exact hnone v le_rfl (by omega))]
    have hset := PgDir.pte_setPte (e := ⟨pa, perm ||| PTE_P⟩) htable
    rw [hpte] at hset
    refine (ih (d := d'.setPte v ⟨pa, perm ||| PTE_P⟩) ⟨henough.faults, ?_⟩ (by omega)
      (fun u hvu hu => ?_) (pa + 1)).mono fun r s₂ hr => ?_
    · rw [absent_setPte]
      exact henough.pages
    · rw [hset, update_of_ne (by omega)]
      exact hnone u (by omega) (by omega)
    · refine ⟨hr.1, hr.2.1, fun u hu => ?_⟩
      rw [hr.2.2 u (by omega), hset, update_of_ne (by omega)]

def Ascending : ℕ → List (ℕ × ℕ × PageNo × Flags) → Prop
  | _, [] => True
  | lo, k :: ks => lo ≤ k.1 ∧ k.1 + k.2.1 ≤ 2 ^ 20 ∧ Ascending (k.1 + k.2.1) ks

theorem ascending_kmap (L : Layout) : Ascending 0 (kmap L) := by
  have hgt := L.data_gt
  have hlt := L.data_lt
  simp only [kmap, Ascending, KERNBASE, EXTMEM, PHYSTOP, DEVSPACE, and_true] at hgt hlt ⊢
  omega

theorem Enough.mapKernel {lo : ℕ} (h : Enough k d s) (hks : Ascending lo ks)
    (hnone : ∀ u, lo ≤ u → ¬ (d.pte u).Present) :
    Returns (mapKernel ks d) s fun r s' => ∃ d', r = some d' ∧ Enough k d' s' := by
  induction ks generalizing lo d s with
  | nil => exact returns_pure ⟨d, rfl, h⟩
  | cons line ks ih =>
    obtain ⟨hlo, htop, hrest⟩ := hks
    refine (h.mappages htop (fun u hu _ => hnone u (by omega)) _ _).bind fun r s₁ hr => ?_
    obtain ⟨hok, henough, hsame⟩ := hr
    rw [if_pos hok]
    refine ih henough hrest fun u hu => ?_
    rw [hsame u (Or.inr hu)]
    exact hnone u (by omega)

theorem absent_empty (p : PageNo) : (⟨p, fun _ => none⟩ : PgDir).absent = NPDENTRIES := by
  rw [PgDir.absent, Finset.filter_true_of_mem fun _ _ => rfl, Finset.card_range]

theorem setupkvm_enough (L : Layout) (hfaults : s.pool.faults = [])
    (hfree : 1 + NPDENTRIES + k ≤ s.pool.freelist.length) :
    Returns (setupkvm L) s fun r s' => ∃ d, r = some d ∧ Enough k d s' := by
  refine (kalloc_some hfaults (by omega)).bind fun r s₁ hr => ?_
  obtain ⟨p, rfl, hfaults₁, hlist⟩ := hr
  have henough : Enough k ⟨p, fun _ => none⟩ s₁ := by
    refine ⟨hfaults₁, ?_⟩
    rw [hlist, List.length_cons] at hfree
    rw [absent_empty]
    omega
  exact henough.mapKernel (ascending_kmap L) fun u _ => by rw [pte_empty]; decide

theorem Enough.copyLoop {n i : ℕ} (hn : i + n ≤ KERNBASE)
    (hparent : ∀ v < i + n, (parent.pte v).Present) (h : Enough n d s)
    (hbelow : MapsBelow d i) :
    Returns (copyLoop L parent n i d) s fun r _ => r.isSome := by
  induction n generalizing i d s with
  | zero => exact returns_pure rfl
  | succ n ih =>
    have hpresent := hparent i (by omega)
    obtain ⟨t, ht⟩ := Option.isSome_iff_exists.mp (PgDir.hasTable_of_present hpresent)
    have hnot : ∀ u, i ≤ u → u < i + 1 → ¬ (d.pte u).Present := fun u hiu hui hp => by
      have := (hbelow u (by omega)).mp hp
      omega
    have hpages := h.pages
    rw [UserSpace.copyLoop, ht]
    dsimp only
    rw [if_pos hpresent]
    refine (kalloc_some h.faults (by omega)).bind fun r s₁ hr => ?_
    obtain ⟨p, rfl, hfaults, hlist⟩ := hr
    rw [hlist, List.length_cons] at hpages
    refine returns_get_bind (returns_modify_bind ?_)
    have henough : ∀ mem, Enough n d { s₁ with mem := mem } := fun mem =>
      ⟨hfaults, by change _ ≤ s₁.pool.freelist.length; omega⟩
    refine (((henough _).mappages (by simp only [KERNBASE] at hn; omega) hnot p
      (parent.pte i).flags).and_ends (mappages_returns (by omega) (hnot i le_rfl (by omega)) p
      (parent.pte i).flags _).ends (E := fun _ _ => True)).bind fun r s₂ hr => ?_
    obtain ⟨⟨hok, henough₂, -⟩, -, -, hpte⟩ := hr
    rw [if_pos hok]
    refine ih (by omega) (fun v hv => hparent v (by omega)) henough₂ fun v hv => ?_
    rw [(hpte hok).1]
    by_cases hvi : v = i
    · rw [hvi, update_self]
      exact iff_of_true (present_or p _) (Nat.lt_succ_self i)
    · rw [update_of_ne hvi, hbelow v hv]
      omega

theorem copyuvm_succeeds (L : Layout) {sz : ℕ} (hsz : sz ≤ KERNBASE * PGSIZE)
    (hmaps : MapsBelow parent (pages sz)) (hfaults : s.pool.faults = [])
    (hfree : 1 + NPDENTRIES + pages sz ≤ s.pool.freelist.length) :
    Returns (copyuvm L parent sz) s fun r _ => r.isSome := by
  have hk := pages_le hsz
  rw [copyuvm]
  refine ((setupkvm_enough L hfaults hfree).and_ends (setupkvm_user L s)).bind fun r s₁ hr => ?_
  obtain ⟨⟨d, rfl, henough⟩, huser⟩ := hr
  obtain ⟨-, hempty⟩ := huser d rfl
  refine Enough.copyLoop (by omega) (fun v hv => (hmaps v (by omega)).mpr (by omega)) henough
    fun v hv => ?_
  rw [hempty v hv]
  exact iff_of_false (by decide) (Nat.not_lt_zero v)

end Enough

def manyFree : Machine := { emptyMachine with pool := ⟨List.range' 0x700 2000, []⟩ }

theorem sound_manyFree : Sound someLayout (mapsOne 0) manyFree := by
  have hfree : manyFree.pool.free =
      ((List.range' 0x700 2000 : List PageNo) : Multiset PageNo) := rfl
  constructor
  · rw [owned_mapsOne, hfree, Multiset.nodup_add]
    refine ⟨Multiset.coe_nodup.mpr List.nodup_range', by decide, ?_⟩
    rw [Multiset.disjoint_left]
    intro p hp hin
    have hlow := (List.mem_range'_1.mp (Multiset.mem_coe.mp hp)).1
    have hmem : p ∈ [0x600, 0x601, 0x500] := hin
    fin_cases hmem <;> exact absurd hlow (by decide)
  · intro p hp
    rw [owned_mapsOne, hfree, Multiset.mem_add] at hp
    rcases hp with hp | hp
    · obtain ⟨hlow, hhigh⟩ := List.mem_range'_1.mp (Multiset.mem_coe.mp hp)
      exact ⟨le_trans (by decide) hlow, hhigh.trans_le (by decide),
        (lt_of_lt_of_le (by decide) hlow).ne'⟩
    · have hmem : p ∈ [0x600, 0x601, 0x500] := hp
      rw [Freeable]
      fin_cases hmem <;> decide

theorem copyuvm_copies_mapsOne :
    Returns (copyuvm someLayout (mapsOne 0) 0x1000) manyFree fun r s' =>
      ∃ child, r = some child ∧ CopyOf (mapsOne 0) child manyFree s' := by
  have hmaps : MapsBelow (mapsOne 0) (pages 0x1000) := mapsBelow_oneProc
  have hlength : manyFree.pool.freelist.length = 2000 := List.length_range'
  have hsome : Returns (copyuvm someLayout (mapsOne 0) 0x1000) manyFree fun r _ => r.isSome :=
    copyuvm_succeeds someLayout (by decide) hmaps rfl (by rw [hlength]; decide)
  have hcopy := copyuvm_copies someLayout (mapsOne 0) 0x1000 manyFree (by decide) hmaps
    sound_manyFree
  refine (hsome.and_ends hcopy).mono fun r s' h => ?_
  obtain ⟨child, rfl⟩ := Option.isSome_iff_exists.mp h.1
  exact ⟨child, rfl, h.2 child rfl⟩

end Xv6Prng.UserSpace
