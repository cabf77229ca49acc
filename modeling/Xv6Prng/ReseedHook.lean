import Xv6Prng.Reseed

/-!
# What a reseed does to its own locks and to the free list

The hash of a pool allocates with the lock of the pool held. Every 500 memory operations
the allocator feeds a pool under that pool's lock, so a reseed whose hash is the operation
that the hook falls on, for the very pool the hook is to feed, acquires a lock it holds.
The page that each hash allocates is never freed: a reseed takes 34 pages and gives back
the one of the seed.
-/

namespace Xv6Prng

open ByteWords Halting Ownership

variable {L : Layout}

def NeverReacquires (s : Kernel L) : Prop :=
  Ends (maybeReseed s.ticks) s (fun _ _ => True) fun e _ => e ≠ .panic "acquire"

section Due

variable {s : Kernel L} (hs : s.Unlocked)
  (hd : reseedDue (s.entropy.pools 0) s.ticks s.prng.lastReseedTicks)
include hs hd

theorem maybeReseed_held (h : HookHeld s) :
    Stops (maybeReseed s.ticks) s fun e _ => e = .panic "acquire" := by
  have hs' : (s.setPrng (s.prng.setReseedCtr (s.prng.reseedCtr + 1))).Unlocked := hs
  rw [Stops, maybeReseed_due hs hd]
  have hbad : ¬ ReseedOk (s.setPrng (s.prng.setReseedCtr (s.prng.reseedCtr + 1))) :=
    fun hok => not_hookHeld_of_ok hok.2 h
  exact (reseed_stops hs' hbad).mono fun e _ he => he.mpr h

theorem neverReacquires_of_not_held (h : ¬ HookHeld s) : NeverReacquires s := by
  have hs' : (s.setPrng (s.prng.setReseedCtr (s.prng.reseedCtr + 1))).Unlocked := hs
  rw [NeverReacquires, Ends, maybeReseed_due hs hd]
  by_cases hok : ReseedOk (s.setPrng (s.prng.setReseedCtr (s.prng.reseedCtr + 1)))
  · obtain ⟨_, s', hrun, -⟩ := reseed_returns hs' hok
    rw [hrun]
    trivial
  · obtain ⟨e, s', hrun, he⟩ := reseed_stops hs' hok
    rw [hrun]
    exact fun hacquire => h (he.mp hacquire)

end Due

theorem neverReacquires_iff (s : Kernel L) (hs : s.Unlocked)
    (hd : reseedDue (s.entropy.pools 0) s.ticks s.prng.lastReseedTicks) :
    NeverReacquires s ↔ ¬ HookHeld s := by
  constructor
  · intro h hheld
    obtain ⟨e, s', hrun, he⟩ := maybeReseed_held hs hd hheld
    rw [NeverReacquires, Ends, hrun] at h
    exact h he
  · exact neverReacquires_of_not_held hs hd

theorem Entropy.hookCollides_iff {e : Entropy} (hm : e.memoryOperations.toNat ≤ 500)
    (i : Fin 32) : e.HookCollides i ↔ e.kinit2Called = true ∧
      e.memoryOperations.toNat + i.val = 499 ∧ e.kallocPool.toNat % 32 = i.val := by
  have hdue (k : ℕ) (hk : k ≤ 34) : e.dueAt k = true ↔
      e.kinit2Called = true ∧ 500 < e.memoryOperations.toNat + k := by
    have hsum : (e.memoryOperations + BitVec.ofNat 32 k).toNat = e.memoryOperations.toNat + k := by
      rw [BitVec.toNat_add, BitVec.toNat_ofNat]
      omega
    have hint : (e.memoryOperations + BitVec.ofNat 32 k).toInt = e.memoryOperations.toNat + k := by
      rw [BitVec.toInt_eq_toNat_of_lt (by omega), hsum, Nat.cast_add]
    rw [dueAt, Bool.and_eq_true, decide_eq_true_iff, hint]
    exact and_congr_right fun _ => by omega
  have hfired (k : ℕ) (hk : k ≤ 34) : e.firedBy k = true ↔
      e.kinit2Called = true ∧ 500 < e.memoryOperations.toNat + k := by
    induction k with
    | zero => exact iff_of_false Bool.false_ne_true fun h => by omega
    | succ k ih =>
      rw [firedBy, Bool.or_eq_true, ih (by omega), hdue (k + 1) hk]
      constructor
      · rintro (⟨hc, h⟩ | h)
        · exact ⟨hc, by omega⟩
        · exact h
      · exact Or.inr
  have hi := i.isLt
  rw [HookCollides, ← Bool.not_eq_true, hfired _ (by omega), hdue _ (by omega), Fin.ext_iff]
  constructor
  · rintro ⟨hquiet, ⟨hc, hlt⟩, hpool⟩
    exact ⟨hc, by by_contra hne; exact hquiet ⟨hc, by omega⟩, hpool⟩
  · rintro ⟨hc, hm, hpool⟩
    exact ⟨fun h => by omega, ⟨hc, by omega⟩, hpool⟩

theorem neverReacquires_iff_filled :
    NeverReacquires (Kernel.filled (List.replicate 3 longEvent)) ↔
      ¬ HookHeld (Kernel.filled (List.replicate 3 longEvent)) :=
  neverReacquires_iff _ (fun _ => rfl) (reseedDue_filled (by decide))

structure Quiet (s : Kernel L) (k : ℕ) (s' : Kernel L) : Prop where
  unlocked : s'.Unlocked
  free : s'.heap.freelist.pages = s.heap.freelist.pages
  entropy : s'.entropy =
    { s.entropy with memoryOperations := s.entropy.memoryOperations + BitVec.ofNat 32 k }
  prng : s'.prng = s.prng
  ticks : s'.ticks = s.ticks

variable {s : Kernel L}

theorem Quiet.refl (hs : s.Unlocked) : Quiet s 0 s :=
  ⟨hs, rfl, by simp, rfl, rfl⟩

def takeAndGive : KernelM L Unit := do
  match ← kalloc with
  | some p => kfree p.val
  | none => pure ()

theorem Entropy.hook_quiet {e : Entropy} (h : e.memoryOperations.toNat < 500) (op : MemoryOp)
    (n : ℕ) : e.countOp.hook op n = e.countOp := by
  rw [hook, if_neg]
  have hsum : (e.memoryOperations + 1).toNat = e.memoryOperations.toNat + 1 := by
    rw [BitVec.toNat_add]
    simp only [BitVec.ofNat_eq_ofNat, BitVec.toNat_ofNat]
    omega
  have hint : e.countOp.memoryOperations.toInt = e.memoryOperations.toNat + 1 := by
    rw [countOp, BitVec.toInt_eq_toNat_of_lt (by rw [hsum]; omega), hsum]
    rfl
  rw [hookDue, Bool.and_eq_true, decide_eq_true_iff, hint]
  omega

theorem Quiet.takeAndGive {s s' : Kernel L} {k : ℕ} {p : PageAddr L} {rest : List (PageAddr L)}
    (h : Quiet s k s') (hl : s.heap.freelist.pages = p :: rest)
    (hk : s.entropy.memoryOperations.toNat + k + 1 < 500) :
    Returns takeAndGive s' fun _ s'' => Quiet s (k + 2) s'' := by
  have hm : s'.entropy.memoryOperations.toNat = s.entropy.memoryOperations.toNat + k := by
    rw [h.entropy, BitVec.toNat_add, BitVec.toNat_ofNat]
    omega
  have hm₁ : s'.entropy.countOp.memoryOperations.toNat =
      s.entropy.memoryOperations.toNat + k + 1 := by
    rw [← hm, Entropy.countOp, BitVec.toNat_add]
    simp only [BitVec.ofNat_eq_ofNat, BitVec.toNat_ofNat]
    omega
  have hl' : s'.heap.freelist.pages = p :: rest := h.free.trans hl
  have hpop : s'.heap.pop.freelist.pages = rest := by rw [Heap.pop_pages, hl', List.tail_cons]
  have hp : p ∉ s'.heap.pop.freelist.pages := by
    rw [hpop]
    exact (List.nodup_cons.mp (hl' ▸ s'.heap.freelist.nodup)).1
  have hkalloc := kalloc_apply (h.unlocked _) (hookFree_of_unlocked h.unlocked _ .kalloc)
  rw [hl', Entropy.hook_quiet (by omega)] at hkalloc
  apply Returns.bind_of_eq hkalloc
  have hkfree := kfree_apply (s := (s'.setHeap s'.heap.pop).setEntropy s'.entropy.countOp) hp
    (h.unlocked _) (hookFree_of_unlocked h.unlocked _ .kfree)
  refine ⟨_, _, hkfree, h.unlocked, ?_, ?_, h.prng, h.ticks⟩
  · rw [hl, ← hpop]
    exact Heap.push_pages (h := s'.heap.pop.record (.give p.val)) hp
  · refine (Entropy.hook_quiet (e := s'.entropy.countOp) (by omega) _ _).trans ?_
    rw [Entropy.countOp, Entropy.countOp, h.entropy, BitVec.ofNat_add]
    simp [add_assoc]

theorem quiet_forLoop {n : ℕ} {p : PageAddr L} {rest : List (PageAddr L)}
    (hs : s.Unlocked) (hl : s.heap.freelist.pages = p :: rest)
    (hn : s.entropy.memoryOperations.toNat + 2 * n < 501) :
    Returns (forLoop (fun _ _ => takeAndGive) 0 n ()) s fun _ s' => Quiet s (2 * n) s' := by
  refine (Halting.forLoop_returns (fun i _ s' => Quiet s (2 * i) s') (Quiet.refl hs) ?_).mono ?_
  · intro i _ s' _ hi h
    exact h.takeAndGive hl (by omega)
  · intro _ s' h
    simpa using h

def Kernel.hooked : Kernel .least :=
  (Kernel.filled (List.replicate 3 longEvent)).setEntropy
    { pools := poolsAfter (List.replicate 3 longEvent), memoryOperations := 0, kallocPool := 1,
      kfreePool := 0, kinit2Called := true }

theorem hookHeld_of_quiet {s' : Kernel .least} (h : Quiet Kernel.hooked 498 s') : HookHeld s' := by
  have hm : s'.entropy.memoryOperations = 498 := by
    rw [h.entropy]
    rfl
  have hcollides (i : Fin 32) : s'.entropy.HookCollides i ↔ i = 1 := by
    rw [Entropy.hookCollides_iff (by rw [hm]; decide), hm, h.entropy, Fin.ext_iff]
    constructor
    · rintro ⟨-, hi, -⟩
      change 498 + i.val = 499 at hi
      change i.val = 1
      omega
    · intro hi
      exact ⟨rfl, by rw [hi]; rfl, by rw [hi]; rfl⟩
  refine ⟨1, (hcollides 1).mpr rfl, ?_, fun j hj => ?_⟩
  · rw [h.free]
    decide
  · obtain rfl : j = 0 := by omega
    refine ⟨fun hc => absurd ((hcollides 0).mp hc) (by decide), ?_⟩
    have hsize : s'.entropy.sizeAt 1 0 = 102 := by
      have hfired : s'.entropy.firedBy 1 = false := by
        rw [h.entropy]
        rfl
      rw [Entropy.sizeAt, hfired, if_neg (by simp), add_zero, h.entropy]
      exact poolsAfter_replicate 3
    rw [show (0 : Fin 32).val + 1 = 1 from rfl, hsize]
    decide

/-- After 249 allocations and frees the next reseed holds the lock of pool 1 when the hook
comes to feed pool 1. -/
theorem not_neverReacquires_hooked :
    Returns (forLoop (fun _ _ => takeAndGive) 0 249 ()) Kernel.hooked fun _ s' =>
      reseedDue (s'.entropy.pools 0) s'.ticks s'.prng.lastReseedTicks ∧
        Stops (maybeReseed s'.ticks) s' fun e _ => e = .panic "acquire" := by
  have hfree : Kernel.hooked.heap.freelist.pages =
      Kernel.hooked.heap.freelist.pages.head (by decide) :: Kernel.hooked.heap.freelist.pages.tail :=
    (List.cons_head_tail _).symm
  refine (quiet_forLoop (fun _ => rfl) hfree (by decide)).mono fun _ s' h => ?_
  have hd : reseedDue (s'.entropy.pools 0) s'.ticks s'.prng.lastReseedTicks := by
    rw [h.entropy, h.ticks, h.prng]
    exact reseedDue_filled (n := 3) (by decide)
  exact ⟨hd, maybeReseed_held h.unlocked hd (hookHeld_of_quiet h)⟩

def ReturnsPages (s : Kernel L) : Prop :=
  Returns (maybeReseed s.ticks) s fun _ s' =>
    s'.heap.freelist.pages.length = s.heap.freelist.pages.length

theorem maybeReseed_pages (hs : s.Unlocked)
    (hd : reseedDue (s.entropy.pools 0) s.ticks s.prng.lastReseedTicks) (hok : ReseedOk s) :
    Returns (maybeReseed s.ticks) s fun _ s' =>
      s'.heap.freelist.pages.length + 33 = s.heap.freelist.pages.length := by
  have hs' : (s.setPrng (s.prng.setReseedCtr (s.prng.reseedCtr + 1))).Unlocked := hs
  rw [Returns, maybeReseed_due hs hd]
  exact (reseed_returns hs' hok).mono fun _ s' h => h.2.2.2.2

theorem maybeReseed_leaks {s s' : Kernel L} (hs : s.Unlocked)
    (hd : reseedDue (s.entropy.pools 0) s.ticks s.prng.lastReseedTicks)
    (hrun : (maybeReseed s.ticks).run s = .ok () s') :
    s'.heap.freelist.pages.length + 33 = s.heap.freelist.pages.length := by
  by_cases hok : ReseedOk s
  · obtain ⟨_, s'', hrun', hpages⟩ := maybeReseed_pages hs hd hok
    cases hrun.symm.trans hrun'
    exact hpages
  · have hs' : (s.setPrng (s.prng.setReseedCtr (s.prng.reseedCtr + 1))).Unlocked := hs
    obtain ⟨e, s'', hstop, -⟩ := reseed_stops hs' hok
    rw [maybeReseed_due hs hd, hstop] at hrun
    cases hrun

theorem not_returnsPages (s : Kernel L) (hs : s.Unlocked)
    (hd : reseedDue (s.entropy.pools 0) s.ticks s.prng.lastReseedTicks) :
    ¬ ReturnsPages s ∧ ∀ s', (maybeReseed s.ticks).run s = .ok () s' →
      s'.heap.freelist.pages.length + 33 = s.heap.freelist.pages.length := by
  refine ⟨?_, fun s' hrun => maybeReseed_leaks hs hd hrun⟩
  rintro ⟨_, s', hrun, hpages⟩
  have hleak := maybeReseed_leaks hs hd hrun
  omega

theorem not_returnsPages_filled :
    ¬ ReturnsPages (Kernel.filled (List.replicate 3 longEvent)) ∧
      ∀ s', (maybeReseed 11).run (Kernel.filled (List.replicate 3 longEvent)) = .ok () s' →
        s'.heap.freelist.pages.length + 33 = 63 :=
  not_returnsPages (Kernel.filled (List.replicate 3 longEvent)) (fun _ => rfl)
    (reseedDue_filled (by decide))

theorem reseedOk_filled : ReseedOk (Kernel.filled (List.replicate 3 longEvent)) := by
  refine ⟨by decide, fun i => ⟨fun hc => ?_, ?_⟩⟩
  · have hops := ((Entropy.hookCollides_iff (by decide) i).mp hc).2.1
    change 0 + i.val = 499 at hops
    omega
  · have hfired : (Kernel.filled (List.replicate 3 longEvent)).entropy.firedBy (i.val + 1) =
        false := by
      revert i
      decide
    have hpool : ((Kernel.filled (List.replicate 3 longEvent)).entropy.pools i).size =
        BitVec.ofNat 32 (bytesInto i (List.replicate 3 longEvent)) := poolsAfter_size _ i
    rw [Entropy.sizeAt, hfired, if_neg (by simp), add_zero, hpool]
    revert i
    decide

/-- The first reseed of a kernel with 63 free pages leaves 30. -/
theorem maybeReseed_filled_pages :
    Returns (maybeReseed 11) (Kernel.filled (List.replicate 3 longEvent)) fun _ s' =>
      (Kernel.filled (List.replicate 3 longEvent)).heap.freelist.pages.length = 63 ∧
        s'.heap.freelist.pages.length = 30 := by
  have h := maybeReseed_pages (s := Kernel.filled (List.replicate 3 longEvent)) (fun _ => rfl)
    (reseedDue_filled (by decide)) reseedOk_filled
  exact h.mono fun _ s' hpages => ⟨rfl, Nat.add_right_cancel hpages⟩

end Xv6Prng
