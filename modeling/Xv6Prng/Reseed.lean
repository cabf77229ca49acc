import Xv6Prng.Delivery

/-!
# When a reseed runs to completion

A reseed takes 34 pages: one for the seed, one for each of the 32 pools and one for the
seed's hash. Every one of these `kalloc`s may run the entropy hook, at most once in a
reseed: the hook appends 6 bytes to the pool whose turn it is, or finds the lock of that
pool held by the reseed itself. `Tracks` follows the hook's counters over the operations
of a reseed; the lengths given to the hash and the locks taken follow from it.
-/

namespace Xv6Prng

open ByteWords Halting Ownership Function

variable {L : Layout}

namespace Entropy

def dueAt (e : Entropy) (k : ℕ) : Bool :=
  e.kinit2Called && decide ((e.memoryOperations + BitVec.ofNat 32 k).toInt > 500)

def firedBy (e : Entropy) : ℕ → Bool
  | 0 => false
  | k + 1 => e.firedBy k || e.dueAt (k + 1)

def sizeAt (e : Entropy) (k : ℕ) (i : Fin 32) : Word :=
  (e.pools i).size + (if e.firedBy k = true ∧ e.hookPool .kalloc = i then 6 else 0)

structure Tracks (e : Entropy) (k : ℕ) (e' : Entropy) : Prop where
  kinit2 : e'.kinit2Called = e.kinit2Called
  quiet : e.firedBy k = false →
    e'.memoryOperations = e.memoryOperations + BitVec.ofNat 32 k ∧ e'.kallocPool = e.kallocPool
  spent : e.firedBy k = true → e'.memoryOperations.toNat < k

theorem Tracks.refl (e : Entropy) : Tracks e 0 e where
  kinit2 := rfl
  quiet _ := by simp
  spent h := by simp [firedBy] at h

theorem Tracks.setPools {e e' : Entropy} {k : ℕ} (h : Tracks e k e')
    (pools : Fin 32 → EntropyPool) : Tracks e k { e' with pools := pools } :=
  ⟨h.kinit2, h.quiet, h.spent⟩

section Step

variable {e e' : Entropy} {k : ℕ}

theorem Tracks.memoryOperations_succ (h : Tracks e k e') (hq : e.firedBy k = false) :
    e'.countOp.memoryOperations = e.memoryOperations + BitVec.ofNat 32 (k + 1) := by
  have hm := (h.quiet hq).1
  simp only [countOp, hm]
  bv_omega

theorem Tracks.hookPool_eq (h : Tracks e k e') (hq : e.firedBy k = false) :
    e'.countOp.hookPool .kalloc = e.hookPool .kalloc := by
  have hp : e'.countOp.kallocPool = e.kallocPool := (h.quiet hq).2
  simp only [hookPool, rotation, hp]

theorem Tracks.hookDue_iff (h : Tracks e k e') (hk : k ≤ 34) :
    e'.countOp.hookDue = true ↔ e.firedBy k = false ∧ e.dueAt (k + 1) = true := by
  cases hq : e.firedBy k with
  | false =>
    have hk2 : e'.countOp.kinit2Called = e.kinit2Called := h.kinit2
    rw [hookDue, dueAt, h.memoryOperations_succ hq, hk2]
    simp
  | true =>
    -- At most 34 operations have been counted since the hook ran.
    have hlt := h.spent hq
    have hsmall : ¬ (e'.memoryOperations + 1).toInt > 500 := by
      have htoNat : (e'.memoryOperations + 1).toNat = e'.memoryOperations.toNat + 1 := by
        simp only [BitVec.ofNat_eq_ofNat, BitVec.toNat_add, BitVec.toNat_ofNat]
        omega
      rw [BitVec.toInt_eq_toNat_of_lt (by omega), htoNat]
      omega
    refine ⟨fun hd => ?_, fun hc => ?_⟩
    · rw [hookDue, Bool.and_eq_true, decide_eq_true_iff] at hd
      exact absurd hd.2 hsmall
    · cases hc.1

theorem Tracks.step (h : Tracks e k e') (hk : k ≤ 34) (n : ℕ) :
    Tracks e (k + 1) (e'.countOp.hook .kalloc n) := by
  by_cases hd : e'.countOp.hookDue = true
  · obtain ⟨hq, hdue⟩ := (h.hookDue_iff hk).mp hd
    have hfired : e.firedBy (k + 1) = true := by simp [firedBy, hdue]
    refine ⟨?_, fun hf => ?_, fun _ => ?_⟩
    · rw [hook, if_pos hd]
      exact h.kinit2
    · rw [hfired] at hf
      cases hf
    · rw [hook, if_pos hd]
      simp
  · have hnot := mt (h.hookDue_iff hk).mpr hd
    rw [hook, if_neg hd]
    refine ⟨h.kinit2, fun hf => ?_, fun hf => ?_⟩
    · have hq : e.firedBy k = false := by
        simp only [firedBy, Bool.or_eq_false_iff] at hf
        exact hf.1
      exact ⟨h.memoryOperations_succ hq, (h.quiet hq).2⟩
    · have hq : e.firedBy k = true := by
        simp only [firedBy, Bool.or_eq_true] at hf
        rcases hf with hf | hf
        · exact hf
        · by_contra hq
          exact hnot ⟨by simpa using hq, hf⟩
      have hlt := h.spent hq
      simp only [countOp, BitVec.ofNat_eq_ofNat, BitVec.toNat_add, BitVec.toNat_ofNat]
      omega

theorem Tracks.firedBy_succ (h : Tracks e k e') (hk : k ≤ 34)
    (hd : ¬ e'.countOp.hookDue = true) : e.firedBy (k + 1) = e.firedBy k := by
  have hnot := mt (h.hookDue_iff hk).mpr hd
  cases hq : e.firedBy k with
  | true => simp [firedBy, hq]
  | false =>
    have hdue : e.dueAt (k + 1) = false := by
      by_contra hdue
      exact hnot ⟨hq, by simpa using hdue⟩
    simp [firedBy, hq, hdue]

theorem freeMemoryEvent_size (pool : Fin 32) (n : ℕ) (q : EntropyPool) :
    ((freeMemoryEvent pool n).applyTo q).size = q.size + 6 := by
  rw [RandomEvent.applyTo_size]
  rfl

theorem Tracks.size_step (h : Tracks e k e') (hk : k ≤ 34) (n : ℕ) {i : Fin 32}
    (hi : (e'.pools i).size = e.sizeAt k i) :
    ((e'.countOp.hook .kalloc n).pools i).size = e.sizeAt (k + 1) i := by
  by_cases hd : e'.countOp.hookDue = true
  · obtain ⟨hq, hdue⟩ := (h.hookDue_iff hk).mp hd
    have hfired : e.firedBy (k + 1) = true := by simp [firedBy, hdue]
    rw [hook, if_pos hd]
    simp only [RandomEvent.addTo, freeMemoryEvent_selected, h.hookPool_eq hq, sizeAt, hfired,
      true_and]
    by_cases hp : e.hookPool .kalloc = i
    · subst hp
      have hsize : (e'.countOp.pools (e.hookPool .kalloc)).size =
          (e.pools (e.hookPool .kalloc)).size := by
        simpa [sizeAt, hq] using hi
      rw [update_self, freeMemoryEvent_size, hsize, if_pos rfl]
    · have hsize : (e'.countOp.pools i).size = (e.pools i).size := by
        simpa [sizeAt, hq] using hi
      rw [update_of_ne (Ne.symm hp), hsize, if_neg hp]
      simp
  · rw [hook, if_neg hd, sizeAt, h.firedBy_succ hk hd]
    exact hi

end Step

/-- The hook falls due at the operation that is made with the lock of pool `i` held, and
pool `i` is the one it feeds. -/
def HookCollides (e : Entropy) (i : Fin 32) : Prop :=
  e.firedBy (i.val + 1) = false ∧ e.dueAt (i.val + 2) = true ∧ e.hookPool .kalloc = i

/-- Pool `i` can be hashed when its turn comes. -/
def DrainOk (e : Entropy) (i : Fin 32) : Prop :=
  ¬ e.HookCollides i ∧ 0 ≤ (e.sizeAt (i.val + 1) i).toInt ∧ (e.sizeAt (i.val + 1) i).toInt < 3584

end Entropy

/-- The state of a reseed before pool `i`: `e` is the entropy record, `pages` the number of
free pages and `prng` the generator it started with. -/
structure Draining (e : Entropy) (pages : ℕ) (prng : Prng) (ticks : Word) (seed : PageAddr L)
    (i : ℕ) (s : Kernel L) : Prop where
  unlocked : s.Unlocked
  tracks : e.Tracks (i + 1) s.entropy
  sizes : ∀ j : Fin 32, i ≤ j.val → (s.entropy.pools j).size = e.sizeAt (i + 1) j
  pages : s.heap.freelist.pages.length + i + 1 = pages
  seed : seed ∉ s.heap.freelist.pages
  prng : s.prng = prng
  ticks : s.ticks = ticks

variable {data : Buffer 4096} {p : PageAddr L} {rest : List (PageAddr L)}

section Pool

variable {e : Entropy} {pages : ℕ} {prng : Prng} {ticks : Word} {seed : PageAddr L} {i : ℕ}
  {s : Kernel L}

theorem sizeOk_hashLength (pool : EntropyPool) :
    Hash.sizeOk pool.hashLength ↔ 0 ≤ pool.size.toInt ∧ pool.size.toInt < 3584 := by
  rw [Hash.sizeOk_iff, EntropyPool.hashLength]
  simp only [POOL_SIZE]
  split <;> omega

variable {s' : Kernel L} {size : ℤ}

theorem sha256_apply (hk : kalloc.run s = .ok (some p) s') (hsize : Hash.sizeOk size) :
    Returns (sha256 data size) s fun _ s'' => ∃ page, s'' = s'.setHeap (s'.heap.write p page) := by
  apply Returns.bind_of_eq hk
  rw [if_pos hsize]
  exact returns_modify_bind (returns_get_bind (returns_pure ⟨_, rfl⟩))

theorem sha256_null (hk : kalloc.run s = .ok none s') :
    Stops (sha256 data size) s fun e _ => e ≠ .panic "acquire" := by
  apply Stops.bind_of_eq hk
  split
  · exact stops_throw (by simp)
  · exact stops_throw (by decide)

theorem sha256_size {r : Option (PageAddr L)}
    (hk : kalloc.run s = .ok r s') (hsize : ¬ Hash.sizeOk size) :
    Stops (sha256 data size) s fun e _ => e = .panic "invalid sha256 message size\n" := by
  apply Stops.bind_of_eq hk
  rw [if_neg hsize]
  exact stops_throw rfl

variable (h : Draining e pages prng ticks seed i s)
include h

theorem Draining.kalloc_apply (hi : i < 32)
    (hfree : ¬ (e.firedBy (i + 1) = false ∧ e.dueAt (i + 2) = true ∧
      e.hookPool .kalloc = Fin.ofNat 32 i)) :
    kalloc.run (s.setLock (.pool (Fin.ofNat 32 i)) true) =
      .ok s.heap.freelist.pages.head? (((s.setLock (.pool (Fin.ofNat 32 i)) true).setHeap
        s.heap.pop).setEntropy
          (s.entropy.countOp.hook .kalloc s.heap.pop.freelist.pages.length)) := by
  refine Xv6Prng.kalloc_apply ?_ ?_
  · rw [setLock_of_ne (by simp)]
    exact h.unlocked _
  · intro hd
    obtain ⟨hq, hdue⟩ := (h.tracks.hookDue_iff (by omega)).mp hd
    have hp := h.tracks.hookPool_eq hq
    rw [setLock_of_ne ?_]
    · exact h.unlocked _
    · intro he
      exact hfree ⟨hq, hdue, by rw [← hp]; exact Lock.pool.inj he⟩

theorem Draining.drainPool_returns (hi : i < 32)
    (hok : e.DrainOk (Fin.ofNat 32 i)) (hpages : i + 2 ≤ pages) :
    Returns (drainPool seed (Fin.ofNat 32 i) (32 * i)) s fun r s' =>
      r = 32 * (i + 1) ∧ Draining e pages prng ticks seed (i + 1) s' := by
  have hval : (Fin.ofNat 32 i).val = i := Nat.mod_eq_of_lt hi
  obtain ⟨hfree, hsize⟩ := hok
  rw [Entropy.HookCollides, hval] at hfree
  rw [hval] at hsize
  have hlen := h.pages
  obtain ⟨p, rest, hl⟩ : ∃ p rest, s.heap.freelist.pages = p :: rest := by
    match hl : s.heap.freelist.pages with
    | p :: rest => exact ⟨p, rest, rfl⟩
    | [] => rw [hl] at hlen; simp at hlen; omega
  have hkalloc := h.kalloc_apply hi hfree
  rw [hl] at hkalloc
  have hcheck : Hash.sizeOk (s.entropy.pools (Fin.ofNat 32 i)).hashLength := by
    rw [sizeOk_hashLength, h.sizes _ (by omega)]
    exact hsize
  refine Returns.bind_of_eq (acquire_apply (h.unlocked _)) (returns_get_bind ?_)
  refine (sha256_apply hkalloc hcheck).bind fun digest s₁ h₁ => ?_
  obtain ⟨page, rfl⟩ := h₁
  refine Returns.bind_of_eq (storeBytes_apply _ seed (by omega) digest) ?_
  apply returns_modify_bind
  refine Returns.bind_of_eq (release_apply setLock_self) (returns_pure ⟨by omega, ?_⟩)
  have htail : s.heap.pop.freelist.pages = rest := by rw [Heap.pop_pages, hl, List.tail_cons]
  refine ⟨fun l => ?_, ?_, fun j hj => ?_, ?_, ?_, h.prng, h.ticks⟩
  · exact (congrFun (update_release (h.unlocked _)) l).trans (h.unlocked l)
  · exact (h.tracks.step (by omega) _).setPools _
  · have hne : j ≠ Fin.ofNat 32 i := by
      rintro rfl
      omega
    refine (congrArg EntropyPool.size (update_of_ne hne _ _)).trans ?_
    exact h.tracks.size_step (by omega) _ (h.sizes j (by omega))
  · have hrest : s.heap.pop.freelist.pages.length + (i + 1) + 1 = pages := by
      rw [htail]
      rw [hl, List.length_cons] at hlen
      omega
    exact hrest
  · have hseed : seed ∉ s.heap.pop.freelist.pages := by
      rw [htail]
      intro hm
      exact h.seed (hl ▸ List.mem_cons_of_mem _ hm)
    exact hseed

theorem Draining.drainPool_size (hi : i < 32)
    (hfree : ¬ (e.firedBy (i + 1) = false ∧ e.dueAt (i + 2) = true ∧
      e.hookPool .kalloc = Fin.ofNat 32 i))
    (hsize : ¬ Hash.sizeOk (s.entropy.pools (Fin.ofNat 32 i)).hashLength) (offset : ℕ) :
    Stops (drainPool seed (Fin.ofNat 32 i) offset) s fun e _ =>
      e = .panic "invalid sha256 message size\n" :=
  Stops.bind_of_eq (acquire_apply (h.unlocked _))
    (stops_get_bind (sha256_size (h.kalloc_apply hi hfree) hsize).bind)

theorem Draining.drainPool_held (hi : i < 32)
    (hhook : e.HookCollides (Fin.ofNat 32 i)) (offset : ℕ) :
    Stops (drainPool seed (Fin.ofNat 32 i) offset) s fun e _ => e = .panic "acquire" := by
  have hval : (Fin.ofNat 32 i).val = i := Nat.mod_eq_of_lt hi
  obtain ⟨hq, hdue, hp⟩ := hhook
  rw [hval] at hq hdue
  have hd : (s.setLock (.pool (Fin.ofNat 32 i)) true).entropy.countOp.hookDue = true :=
    (h.tracks.hookDue_iff (by omega)).mpr ⟨hq, hdue⟩
  refine Stops.bind_of_eq (acquire_apply (h.unlocked _)) (stops_get_bind ?_)
  apply Stops.bind
  apply Stops.bind
  apply kalloc_held _ hd
  · have hpool : (s.setLock (.pool (Fin.ofNat 32 i)) true).entropy.countOp.hookPool .kalloc =
        Fin.ofNat 32 i := (h.tracks.hookPool_eq hq).trans hp
    rw [hpool]
    exact setLock_self
  · rw [setLock_of_ne (by simp)]
    exact h.unlocked _

theorem Draining.drainPool_stops (hi : i < 32) (hfree : ¬ e.HookCollides (Fin.ofNat 32 i))
    (hbad : ¬ (e.DrainOk (Fin.ofNat 32 i) ∧ i + 2 ≤ pages)) :
    Stops (drainPool seed (Fin.ofNat 32 i) (32 * i)) s fun e _ => e ≠ .panic "acquire" := by
  have hval : (Fin.ofNat 32 i).val = i := Nat.mod_eq_of_lt hi
  have hfree' := hfree
  rw [Entropy.HookCollides, hval] at hfree'
  by_cases hsize : Hash.sizeOk (s.entropy.pools (Fin.ofNat 32 i)).hashLength
  · -- The length passes, so it is the page that is missing.
    have hnone : s.heap.freelist.pages.head? = none := by
      rw [List.head?_eq_none_iff]
      by_contra hne
      refine hbad ⟨⟨hfree, ?_⟩, ?_⟩
      · rw [sizeOk_hashLength, h.sizes _ (by omega)] at hsize
        rwa [hval]
      · have hpos := List.length_pos_iff.mpr hne
        have hlen := h.pages
        omega
    have hkalloc := h.kalloc_apply hi hfree'
    rw [hnone] at hkalloc
    exact Stops.bind_of_eq (acquire_apply (h.unlocked _))
      (stops_get_bind (sha256_null hkalloc).bind)
  · refine (h.drainPool_size hi hfree' hsize _).mono fun e _ he => ?_
    rw [he]
    decide

end Pool

section Whole

variable {s : Kernel L}

structure Reseeded (s s' : Kernel L) : Prop where
  counter : s'.prng.counter = s.prng.counter.incrctr
  reseedCtr : s'.prng.reseedCtr = s.prng.reseedCtr + 1
  stamp : s'.prng.lastReseedTicks = s.ticks
  unlocked : s'.Unlocked

theorem drainSelected_eq (seed : PageAddr L) {i : ℕ} (hi : i < 32) (offset : ℕ) (s : Kernel L) :
    (drainSelected seed i offset).run s =
      (drainPool seed (Fin.ofNat 32 i) offset).run s := by
  rw [drainSelected, get_bind, if_pos (poolSelected_of_lt _ hi)]

theorem sha256_sees {v : View L} {size : ℤ} (data : Buffer 4096) (hs : Sees s v)
    (hfree : v.free = p :: rest) (hsize : Hash.sizeOk size) :
    Returns (sha256 data size) s fun _ s' =>
      ∃ page, Sees s' ((v.take p rest).writePage p page) := by
  obtain ⟨_, s₁, hrun, rfl, h₁⟩ := kalloc_sees hs hfree
  refine (sha256_apply hrun hsize).mono fun _ s₂ h₂ => ?_
  obtain ⟨page, rfl⟩ := h₂
  exact ⟨page, h₁.write p page⟩

theorem stampTicks_sees {v : View L} (hs : Sees s v) :
    Returns stampTicks s fun _ s' => Sees s' (v.setPrng (v.prng.setLastReseedTicks v.ticks)) := by
  obtain ⟨hu, rfl⟩ := hs
  refine Returns.bind_of_eq (acquire_apply (hu _)) (returns_modify_bind ?_)
  refine ⟨(), _, release_apply (l := .tickslock) (by simp [Kernel.setLock]), fun l => ?_, rfl⟩
  exact (congrFun (update_release (hu _)) l).trans (hu l)

variable {seed : PageAddr L}

theorem prngreseed_returns (hs : s.Unlocked)
    (hl : s.heap.freelist.pages = p :: rest) (hseed : seed ∉ s.heap.freelist.pages) :
    Returns (prngreseed seed 1024) s fun _ s' => s'.Unlocked ∧
      s'.prng.counter = s.prng.counter.incrctr ∧ s'.prng.reseedCtr = s.prng.reseedCtr ∧
      s'.prng.lastReseedTicks = s.ticks ∧
      s'.heap.freelist.pages.length = s.heap.freelist.pages.length := by
  have hsees : Sees s s.view := ⟨hs, rfl⟩
  have hseed' : seed ∉ rest := fun hm => hseed (hl ▸ List.mem_cons_of_mem _ hm)
  apply returns_get_bind
  refine (sha256_sees _ hsees hl ((Hash.sizeOk_iff _).mpr (by decide))).bind fun digest s₁ h₁ => ?_
  obtain ⟨page, h₁⟩ := h₁
  apply returns_modify_bind
  refine (kfree_sees (h₁.setPrng _) hseed').bind fun _ s₂ h₂ => ?_
  obtain ⟨page', h₂⟩ := h₂
  have hprng : s₁.prng = s.prng := h₁.prng
  refine (stampTicks_sees h₂).mono fun _ s₃ h₃ => ?_
  have hfree : s₃.heap.freelist.pages = seed :: rest := congrArg View.free h₃.view_eq
  rw [h₃.prng, ← hprng, hfree, hl]
  exact ⟨h₃.unlocked, rfl, rfl, rfl, rfl⟩

theorem prngreseed_stops (hs : s.Unlocked) (hl : s.heap.freelist.pages = []) (length : ℕ) :
    Stops (prngreseed seed length) s fun e _ => e ≠ .panic "acquire" := by
  have hkalloc := kalloc_apply (hs _) (hookFree_of_unlocked hs _ .kalloc)
  rw [hl] at hkalloc
  exact stops_get_bind (sha256_null hkalloc).bind

theorem zalloc_draining (msg : String) (hs : s.Unlocked) (hl : s.heap.freelist.pages = p :: rest) :
    Returns (zalloc msg) s fun seed s' =>
      Draining s.entropy s.heap.freelist.pages.length s.prng s.ticks seed 0 s' := by
  have hkalloc := kalloc_apply (hs _) (hookFree_of_unlocked hs _ .kalloc)
  rw [hl] at hkalloc
  refine Returns.bind_of_eq hkalloc (returns_modify_bind (returns_pure ?_))
  have htail : s.heap.pop.freelist.pages = rest := by rw [Heap.pop_pages, hl, List.tail_cons]
  have htracks := Entropy.Tracks.refl s.entropy
  refine ⟨hs, htracks.step (by omega) _, fun j _ => ?_, ?_, ?_, rfl, rfl⟩
  · exact htracks.size_step (by omega) _ (by simp [Entropy.sizeAt, Entropy.firedBy])
  · have hlen : s.heap.pop.freelist.pages.length + 0 + 1 = s.heap.freelist.pages.length := by
      rw [htail, hl, List.length_cons]
    rw [← hlen]
    rfl
  · have hp : p ∉ s.heap.pop.freelist.pages := by
      rw [htail]
      exact (List.nodup_cons.mp (hl ▸ s.heap.freelist.nodup)).1
    exact hp

theorem Draining.forLoop_returns {e : Entropy} {pages : ℕ} {prng : Prng} {ticks : Word}
    (h : Draining e pages prng ticks seed 0 s)
    (hok : ∀ i < 32, e.DrainOk (Fin.ofNat 32 i) ∧ i + 2 ≤ pages) :
    Returns (forLoop (drainSelected seed) 0 MAX_POOLS 0) s fun offset s' =>
      offset = 1024 ∧ Draining e pages prng ticks seed 32 s' := by
  refine Halting.forLoop_returns
    (fun i offset s' => offset = 32 * i ∧ Draining e pages prng ticks seed i s') ⟨rfl, h⟩ ?_
  rintro i offset s' - hi ⟨rfl, h'⟩
  have hi' : i < 32 := by omega
  rw [Returns, drainSelected_eq seed hi']
  exact h'.drainPool_returns hi' (hok i hi').1 (hok i hi').2

theorem Draining.forLoop_stops {e : Entropy} {pages k : ℕ} {prng : Prng} {ticks : Word}
    {E : Stop → Kernel L → Prop} (h : Draining e pages prng ticks seed 0 s)
    (hk : k < 32) (hok : ∀ i < k, e.DrainOk (Fin.ofNat 32 i) ∧ i + 2 ≤ pages)
    (hstop : ∀ s', Draining e pages prng ticks seed k s' →
      Stops (drainPool seed (Fin.ofNat 32 k) (32 * k)) s' E) :
    Stops (forLoop (drainSelected seed) 0 MAX_POOLS 0) s E := by
  refine Halting.forLoop_stops (k := k)
    (fun i offset s' => offset = 32 * i ∧ Draining e pages prng ticks seed i s') ⟨rfl, h⟩ hk ?_ ?_
  · rintro i offset s' - hi ⟨rfl, h'⟩
    have hi' : i < k := by omega
    rw [Returns, drainSelected_eq seed (by omega)]
    exact h'.drainPool_returns (by omega) (hok i hi').1 (hok i hi').2
  · rintro offset s' ⟨rfl, h'⟩
    rw [Nat.zero_add] at h' ⊢
    rw [Stops, drainSelected_eq seed hk]
    exact hstop s' h'

def ReseedOk (s : Kernel L) : Prop :=
  34 ≤ s.heap.freelist.pages.length ∧ ∀ i : Fin 32, s.entropy.DrainOk i

theorem reseed_returns (hs : s.Unlocked) (hok : ReseedOk s) :
    Returns reseed s fun _ s' => s'.Unlocked ∧
      s'.prng.counter = s.prng.counter.incrctr ∧ s'.prng.reseedCtr = s.prng.reseedCtr ∧
      s'.prng.lastReseedTicks = s.ticks ∧
      s'.heap.freelist.pages.length + 33 = s.heap.freelist.pages.length := by
  obtain ⟨hlen, hdrain⟩ := hok
  obtain ⟨p, rest, hl⟩ :=
    List.exists_cons_of_length_pos (show 0 < s.heap.freelist.pages.length by omega)
  refine (zalloc_draining _ hs hl).bind fun seed s₁ h₁ => ?_
  refine (h₁.forLoop_returns fun i hi => ⟨hdrain _, by omega⟩).bind fun offset s₂ h₂ => ?_
  obtain ⟨rfl, h₂⟩ := h₂
  have hpages := h₂.pages
  obtain ⟨q, rest₂, hl₂⟩ :=
    List.exists_cons_of_length_pos (show 0 < s₂.heap.freelist.pages.length by omega)
  refine (prngreseed_returns h₂.unlocked hl₂ h₂.seed).mono fun _ s₃ h₃ => ?_
  rw [← h₂.prng, ← h₂.ticks, h₃.2.2.2.2]
  exact ⟨h₃.1, h₃.2.1, h₃.2.2.1, h₃.2.2.2.1, by omega⟩

def HookHeld (s : Kernel L) : Prop :=
  ∃ i : Fin 32, s.entropy.HookCollides i ∧ i.val + 1 ≤ s.heap.freelist.pages.length ∧
    ∀ j < i, s.entropy.DrainOk j

theorem not_hookHeld_of_ok (h : ∀ i, s.entropy.DrainOk i) : ¬ HookHeld s := by
  rintro ⟨i, hi, -⟩
  exact (h i).1 hi

section First

variable {k : ℕ} (hk : k < 32)
  (hmin : ∀ i < k, s.entropy.DrainOk (Fin.ofNat 32 i) ∧ i + 2 ≤ s.heap.freelist.pages.length)
include hk hmin

theorem hookHeld_of_first (hpos : 1 ≤ s.heap.freelist.pages.length)
    (hhook : s.entropy.HookCollides (Fin.ofNat 32 k)) : HookHeld s := by
  have hval : (Fin.ofNat 32 k).val = k := Nat.mod_eq_of_lt hk
  refine ⟨Fin.ofNat 32 k, hhook, ?_, fun j hj => ?_⟩
  · rw [hval]
    by_cases h0 : k = 0
    · omega
    · have hlast := (hmin (k - 1) (by omega)).2
      omega
  · have hj' : j.val < k := by
      rw [← hval]
      exact hj
    have hok := (hmin j.val hj').1
    rwa [Fin.ofNat_val_eq_self] at hok

theorem not_hookHeld_of_first (hhook : ¬ s.entropy.HookCollides (Fin.ofNat 32 k))
    (hbad : ¬ (s.entropy.DrainOk (Fin.ofNat 32 k) ∧ k + 2 ≤ s.heap.freelist.pages.length)) :
    ¬ HookHeld s := by
  have hval : (Fin.ofNat 32 k).val = k := Nat.mod_eq_of_lt hk
  rintro ⟨i, hi, hpages, hbefore⟩
  rcases Nat.lt_trichotomy i.val k with hlt | heq | hgt
  · have hok := (hmin i.val hlt).1
    rw [Fin.ofNat_val_eq_self] at hok
    exact hok.1 hi
  · have hik : Fin.ofNat 32 k = i := Fin.ext (hval.trans heq.symm)
    exact hhook (hik ▸ hi)
  · have hki : Fin.ofNat 32 k < i := by
      rw [Fin.lt_def, hval]
      exact hgt
    exact hbad ⟨hbefore _ hki, by omega⟩

end First

theorem reseed_stops (hs : s.Unlocked) (hbad : ¬ ReseedOk s) :
    Stops reseed s fun e _ => e = .panic "acquire" ↔ HookHeld s := by
  match hl : s.heap.freelist.pages with
  | [] =>
    have hkalloc := kalloc_apply (hs _) (hookFree_of_unlocked hs _ .kalloc)
    rw [hl] at hkalloc
    refine Stops.bind (Stops.bind_of_eq hkalloc (stops_throw (iff_of_false (by decide) ?_)))
    rintro ⟨i, -, hi, -⟩
    rw [hl, List.length_nil] at hi
    omega
  | p :: rest =>
    refine (zalloc_draining _ hs hl).stops_bind fun seed s₁ h₁ => ?_
    have hpos : 1 ≤ s.heap.freelist.pages.length := by simp [hl]
    by_cases hall : ∀ i < 32, s.entropy.DrainOk (Fin.ofNat 32 i) ∧
        i + 2 ≤ s.heap.freelist.pages.length
    · -- Every pool has been drained with the last page.
      have hok (i : Fin 32) : s.entropy.DrainOk i := by
        have hi := (hall i.val i.isLt).1
        rwa [Fin.ofNat_val_eq_self] at hi
      refine (h₁.forLoop_returns hall).stops_bind fun offset s₂ h₂ => ?_
      refine (prngreseed_stops h₂.2.unlocked ?_ offset).mono fun e _ he =>
        iff_of_false he (not_hookHeld_of_ok hok)
      by_contra hne
      have hpos₂ := List.length_pos_iff.mpr hne
      have hpages := h₂.2.pages
      exact hbad ⟨by omega, hok⟩
    · have hex : ∃ i, i < 32 ∧ ¬ (s.entropy.DrainOk (Fin.ofNat 32 i) ∧
          i + 2 ≤ s.heap.freelist.pages.length) := by
        obtain ⟨i, hi⟩ := not_forall.mp hall
        exact ⟨i, Classical.not_imp.mp hi⟩
      classical
      have hspec := Nat.find_spec hex
      have hmin (i : ℕ) (hi : i < Nat.find hex) : s.entropy.DrainOk (Fin.ofNat 32 i) ∧
          i + 2 ≤ s.heap.freelist.pages.length := by
        have hnot := Nat.find_min hex hi
        by_contra hc
        exact hnot ⟨by omega, hc⟩
      generalize Nat.find hex = k at hspec hmin
      refine (h₁.forLoop_stops hspec.1 hmin fun s' h' => ?_).bind
      by_cases hhook : s.entropy.HookCollides (Fin.ofNat 32 k)
      · refine (h'.drainPool_held hspec.1 hhook _).mono fun e _ he => iff_of_true he ?_
        exact hookHeld_of_first hspec.1 hmin hpos hhook
      · refine (h'.drainPool_stops hspec.1 hhook hspec.2).mono fun e _ he => iff_of_false he ?_
        exact not_hookHeld_of_first hspec.1 hmin hhook hspec.2

theorem maybeReseed_due (hs : s.Unlocked)
    (hd : reseedDue (s.entropy.pools 0) s.ticks s.prng.lastReseedTicks) :
    (maybeReseed s.ticks).run s =
      reseed.run (s.setPrng (s.prng.setReseedCtr (s.prng.reseedCtr + 1))) := by
  have hd' : reseedDue ((s.setLock (.pool 0) true).entropy.pools 0) s.ticks
      (s.setLock (.pool 0) true).prng.lastReseedTicks := hd
  rw [maybeReseed, bind_ok (acquire_apply (hs _)), get_bind, if_pos hd', modify_bind,
    bind_ok (release_apply (by simp [Kernel.setLock]))]
  congr 1
  simp only [Kernel.setLock, Kernel.setLocks, Kernel.setPrng, update_release (hs _)]

theorem maybeReseed_size (hs : s.Unlocked)
    (hd : reseedDue (s.entropy.pools 0) s.ticks s.prng.lastReseedTicks)
    (hl : s.heap.freelist.pages = p :: rest) (hquiet : s.entropy.dueAt 2 = false)
    (hsize : ¬ (s.entropy.sizeAt 1 0).toInt < 3584) :
    Stops (maybeReseed s.ticks) s fun e _ => e = .panic "invalid sha256 message size\n" := by
  have hs' : (s.setPrng (s.prng.setReseedCtr (s.prng.reseedCtr + 1))).Unlocked := hs
  rw [Stops, maybeReseed_due hs hd]
  refine (zalloc_draining _ hs' hl).stops_bind fun seed s₁ h₁ => ?_
  refine (h₁.forLoop_stops (k := 0) (by decide) (by omega) fun s₂ h₂ => ?_).bind
  refine h₂.drainPool_size (by decide) ?_ ?_ _
  · rintro ⟨-, hdue, -⟩
    exact absurd (hquiet.symm.trans hdue) (by decide)
  · have hpool : (s₂.entropy.pools (Fin.ofNat 32 0)).size = s.entropy.sizeAt 1 0 :=
      h₂.sizes _ (Nat.zero_le _)
    rw [sizeOk_hashLength, hpool]
    exact fun hc => hsize hc.2

/-- A reseed that is due runs to completion exactly when there are pages for it and every
pool can be hashed when its turn comes. -/
theorem maybeReseed_returns_iff (s : Kernel L) (hs : s.Unlocked)
    (hd : reseedDue (s.entropy.pools 0) s.ticks s.prng.lastReseedTicks) :
    Returns (maybeReseed s.ticks) s (fun _ s' => Reseeded s s') ↔
      34 ≤ s.heap.freelist.pages.length ∧ ∀ i : Fin 32, s.entropy.DrainOk i := by
  have hs' : (s.setPrng (s.prng.setReseedCtr (s.prng.reseedCtr + 1))).Unlocked := hs
  constructor
  · intro h
    by_contra hbad
    rw [Returns, maybeReseed_due hs hd] at h
    exact (reseed_stops hs' hbad).not_returns h
  · intro hok
    rw [Returns, maybeReseed_due hs hd]
    refine (reseed_returns hs' hok).mono fun _ s' h => ?_
    exact ⟨h.2.1, h.2.2.1, h.2.2.2.1, h.1⟩

end Whole

def poolsAfter (events : List RandomEvent) : Fin 32 → EntropyPool :=
  events.foldl (fun pools e => e.addTo pools) fun _ => EntropyPool.empty

def bytesInto (i : Fin 32) (events : List RandomEvent) : ℕ :=
  ((events.filter fun e => e.selected = some i).map RandomEvent.length).sum

theorem RandomEvent.addTo_size (e : RandomEvent) (pools : Fin 32 → EntropyPool) (i : Fin 32) :
    (e.addTo pools i).size = (pools i).size + BitVec.ofNat 32 (bytesInto i [e]) := by
  rw [RandomEvent.addTo]
  cases h : e.selected with
  | none => simp [bytesInto, h]
  | some j =>
    by_cases hj : j = i
    · subst hj
      simp [bytesInto, h, RandomEvent.applyTo_size]
    · have hne : i ≠ j := fun he => hj he.symm
      simp [bytesInto, h, hj, hne]

theorem poolsAfter_size (events : List RandomEvent) (i : Fin 32) :
    (poolsAfter events i).size = BitVec.ofNat 32 (bytesInto i events) := by
  induction events using List.reverseRecOn with
  | nil => rfl
  | append_singleton events e ih =>
    have hsplit : bytesInto i (events ++ [e]) = bytesInto i events + bytesInto i [e] := by
      simp [bytesInto]
    rw [poolsAfter, List.foldl_append, List.foldl_cons, List.foldl_nil, RandomEvent.addTo_size,
      hsplit, BitVec.ofNat_add, ← ih]
    rfl

/-- A kernel that has never reseeded, with time enough since its start and the pools
filled by the given events. -/
def Kernel.filled (events : List RandomEvent) : Kernel .least :=
  { (Kernel.atRest Prng.initial FreeList.least).setEntropy
      { pools := poolsAfter events, memoryOperations := 0, kallocPool := 0, kfreePool := 0,
        kinit2Called := true } with ticks := 11 }

def longEvent : RandomEvent := ⟨1, 0, some fun _ => 7, 32⟩

theorem poolsAfter_replicate (n : ℕ) :
    (poolsAfter (List.replicate n longEvent) 0).size = BitVec.ofNat 32 (34 * n) := by
  have hlength : longEvent.length = 34 := rfl
  have hselected : longEvent.selected = some 0 := rfl
  rw [poolsAfter_size]
  simp [bytesInto, hselected, hlength, mul_comm]

theorem reseedDue_filled {n : ℕ} (hn : 64 < (BitVec.ofNat 32 (34 * n)).toInt) :
    reseedDue ((Kernel.filled (List.replicate n longEvent)).entropy.pools 0) 11 0 := by
  refine ⟨?_, by decide⟩
  have hsize : ((Kernel.filled (List.replicate n longEvent)).entropy.pools 0).size = _ :=
    poolsAfter_replicate n
  rw [hsize]
  exact hn

theorem maybeReseed_returns_iff_filled :
    Returns (maybeReseed 11) (Kernel.filled (List.replicate 3 longEvent))
      (fun _ s' => Reseeded (Kernel.filled (List.replicate 3 longEvent)) s') ↔
      34 ≤ 63 ∧ ∀ i : Fin 32, (Kernel.filled (List.replicate 3 longEvent)).entropy.DrainOk i :=
  maybeReseed_returns_iff (Kernel.filled (List.replicate 3 longEvent)) (fun _ => rfl)
    (reseedDue_filled (by decide))

theorem maybeReseed_filled_size {n : ℕ} (hn : ¬ (BitVec.ofNat 32 (34 * n)).toInt < 3584) :
    Stops (maybeReseed 11) (Kernel.filled (List.replicate n longEvent)) fun e _ =>
      e = .panic "invalid sha256 message size\n" := by
  refine maybeReseed_size (s := Kernel.filled (List.replicate n longEvent)) (fun _ => rfl)
    (reseedDue_filled (by omega)) rfl rfl ?_
  have hfired : (Kernel.filled (List.replicate n longEvent)).entropy.firedBy 1 = false := rfl
  rw [Entropy.sizeAt, hfired, if_neg (by simp), add_zero]
  rwa [← poolsAfter_replicate] at hn

theorem not_maybeReseed_returns_filled :
    reseedDue ((Kernel.filled (List.replicate 106 longEvent)).entropy.pools 0) 11 0 ∧
      Stops (maybeReseed 11) (Kernel.filled (List.replicate 106 longEvent)) fun e _ =>
        e = .panic "invalid sha256 message size\n" :=
  ⟨reseedDue_filled (by decide), maybeReseed_filled_size (by decide)⟩

end Xv6Prng
