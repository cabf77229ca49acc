import Xv6Prng.Request

/-!
# Which requests are served

On a seeded generator that is not due for a reseed, `prngrand` serves exactly the
requests of at least one byte and less than a page, unless the blocks of the request use
up the counter. A request for a whole page or for nothing has `kfree` called on a null
pointer, a longer one leaves its pages, and one that ends on the clearing of the counter
finds the generator unseeded.
-/

namespace Xv6Prng

open ByteWords Halting Ownership

variable {L : Layout} {s : Kernel L} {output : Word} {n : ℕ}

/-- Pages enough for a request of `n` bytes: two pages of pointers, and block and output
pages side by side. -/
def pagesNeeded (n : ℕ) : ℕ := 2 + max 1 (2 * ((n + 4095) / 4096))

structure Ready (s : Kernel L) (n : ℕ) : Prop where
  unlocked : s.Unlocked
  reseeded : s.prng.reseedCtr ≠ 0
  seeded : s.prng.counter.c0 ≠ 0
  notDue : ¬ reseedDue (s.entropy.pools 0) s.ticks s.prng.lastReseedTicks
  size : n ≤ 2 ^ 20
  pages : pagesNeeded n ≤ s.heap.freelist.pages.length

theorem setLock_restore {l : Lock} (h : s.locks l = false) :
    (s.setLock l true).setLock l false = s := by
  simp only [Kernel.setLock, Kernel.setLocks, update_release h]

theorem readTicks_apply (h : s.locks .tickslock = false) : readTicks.run s = .ok s.ticks s := by
  rw [readTicks, bind_ok (acquire_apply h), get_bind, bind_ok (release_apply setLock_self),
    setLock_restore h, EStateM.run_pure]
  rfl

theorem prngrand_eq_generate (hs : s.Unlocked)
    (hd : ¬ reseedDue (s.entropy.pools 0) s.ticks s.prng.lastReseedTicks) (output : Word)
    (numbytes : ℤ) : (prngrand output numbytes).run s = (generate output numbytes).run s := by
  have hmaybe : (maybeReseed s.ticks).run s = .ok () s := by
    have hd' : ¬ reseedDue ((s.setLock (.pool 0) true).entropy.pools 0) s.ticks
        (s.setLock (.pool 0) true).prng.lastReseedTicks := hd
    rw [maybeReseed, bind_ok (acquire_apply (hs _)), get_bind, if_neg hd',
      release_apply setLock_self, setLock_restore (hs _)]
  rw [prngrand, bind_ok (readTicks_apply (hs _)), bind_ok hmaybe]

theorem exists_split {l : List (PageAddr L)} {k : ℕ} (h : k + 2 ≤ l.length) :
    ∃ pages q q₂ rest, l = pages ++ q :: q₂ :: rest ∧ pages.length = k := by
  have hdrop : 2 ≤ (l.drop k).length := by
    rw [List.length_drop]
    omega
  match hd : l.drop k with
  | q :: q₂ :: rest =>
    refine ⟨l.take k, q, q₂, rest, ?_, ?_⟩
    · rw [← hd, List.take_append_drop]
    · rw [List.length_take]
      omega
  | [] | [_] =>
    rw [hd] at hdrop
    simp at hdrop

theorem Ready.four (h : Ready s n) (hn : 0 < n) :
    ∃ d a b q rest, s.heap.freelist.pages = d :: a :: b :: q :: rest := by
  have hp := h.pages
  unfold pagesNeeded at hp
  obtain ⟨pages, b, q, rest, hl, hlen⟩ := exists_split (k := 2) (l := s.heap.freelist.pages) (by omega)
  obtain ⟨d, a, rfl⟩ := List.length_eq_two.mp hlen
  exact ⟨d, a, b, q, rest, hl⟩

theorem nodup_addresses {d a b q : PageAddr L} {rest : List (PageAddr L)}
    (hl : s.heap.freelist.pages = d :: a :: b :: q :: rest) :
    [d.val, a.val, b.val, q.val].Nodup := by
  have hnodup := (hl ▸ s.heap.freelist.nodup).sublist (List.sublist_append_left [d, a, b, q] rest)
  exact hnodup.map Subtype.val_injective

theorem Ready.three (h : Ready s n) :
    ∃ d a b rest, s.heap.freelist.pages = d :: a :: b :: rest := by
  have hp := h.pages
  unfold pagesNeeded at hp
  obtain ⟨pages, a, b, rest, hl, hlen⟩ := exists_split (k := 1) (l := s.heap.freelist.pages) (by omega)
  obtain ⟨d, rfl⟩ := List.length_eq_one_iff.mp hlen
  exact ⟨d, a, b, rest, hl⟩

theorem numblocks_pages (n : ℕ) : (numblocks n + 255) / 256 = (n + 4095) / 4096 := by
  unfold numblocks
  split <;> omega

theorem Ready.long (h : Ready s n) (hn : 4096 < n) :
    ∃ d a pages q q₂ rest, s.heap.freelist.pages = d :: a :: (pages ++ q :: q₂ :: rest) ∧
      pages.length = (numblocks n + 255) / 256 := by
  have hp := h.pages
  rw [pagesNeeded, ← numblocks_pages] at hp
  have hceil := numblocks_pages n
  obtain ⟨pages, q, q₂, rest, hl, hlen⟩ :=
    exists_split (k := (numblocks n + 255) / 256 + 2) (l := s.heap.freelist.pages) (by omega)
  obtain ⟨d, pages, rfl⟩ := List.exists_cons_of_length_eq_add_one hlen
  obtain ⟨a, pages, rfl⟩ := List.exists_cons_of_length_eq_add_one (Nat.succ.inj hlen)
  exact ⟨d, a, pages, q, q₂, rest, hl, Nat.succ.inj (Nat.succ.inj hlen)⟩

theorem Ready.sees (h : Ready s n) : Sees s s.view := ⟨h.unlocked, rfl⟩

theorem Ready.c0_eq_zero_iff (h : Ready s n) :
    (Counter.incrctr^[numblocks n] s.prng.counter).c0 = 0 ↔
      numblocks n = s.prng.counter.wrapDistance := by
  apply Counter.iterate_c0_eq_zero_iff h.seeded
  have hle := numblocks_le (n := n) (by have := h.size; omega)
  rw [Int.toNat_natCast] at hle
  omega

theorem Ready.stops {E : Stop → Kernel L → Prop} (h : Ready s n)
    (hg : Stops (generate output n) s E) : Stops (prngrand output n) s E := by
  obtain ⟨e, s', hrun, hE⟩ := hg
  exact ⟨e, s', by rw [prngrand_eq_generate h.unlocked h.notDue, hrun], hE⟩

theorem prngrand_zero (output : Word) (h : Ready s 0) :
    Stops (prngrand output (0 : ℕ)) s fun e _ => e = .panic "kfree" := by
  obtain ⟨d, a, b, rest, hl⟩ := h.three
  exact h.stops (generate_zero h.sees hl h.reseeded h.seeded)

theorem prngrand_page (output : Word) (h : Ready s 4096)
    (hw : numblocks 4096 ≠ s.prng.counter.wrapDistance) :
    Stops (prngrand output (4096 : ℕ)) s fun e _ => e = .panic "kfree" := by
  obtain ⟨d, a, b, q, rest, hl⟩ := h.four (by omega)
  exact h.stops (generate_page h.sees hl h.reseeded h.seeded (mt h.c0_eq_zero_iff.mp hw))

theorem prngrand_long (output : Word) (h : Ready s n) (hn : 4096 < n) :
    Stops (prngrand output n) s fun e _ => e = .undefined .outOfPage := by
  obtain ⟨d, a, pages, q, q₂, rest, hl, hlen⟩ := h.long hn
  exact h.stops (generate_long h.sees hl h.reseeded h.seeded hn h.size hlen)

theorem replay_unseeded {d a b q : Word} (h : [d, a, b, q].Nodup) :
    replay [] [.take d, .take a, .take b, .take q, .give b, .give a, .take a] =
      some [a, q, d] := by
  simp only [List.nodup_cons, List.mem_cons, List.not_mem_nil, or_false, not_or] at h
  obtain ⟨⟨hda, hdb, hdq⟩, ⟨hab, haq⟩, hbq, -⟩ := h
  simp [replay, Ne.symm hda, Ne.symm hdb, Ne.symm hdq, Ne.symm hab, Ne.symm haq, Ne.symm hbq, haq]

theorem prngrand_unseeded (output : Word) (h : Ready s n) (hn : 0 < n) (hn' : n ≤ 4096)
    (hw : numblocks n = s.prng.counter.wrapDistance) :
    Stops (prngrand output n) s fun e s' =>
      e = .panic "prnggenblocks: called with non-seeded generator." ∧
        ∃ t, s'.heap.trace = s.heap.trace ++ t ∧ Owned t := by
  obtain ⟨d, a, b, q, rest, hl⟩ := h.four hn
  refine h.stops ((generate_unseeded h.sees hl h.reseeded h.seeded hn hn'
    (h.c0_eq_zero_iff.mpr hw)).mono fun e s' he => ⟨he.1, _, he.2, ?_⟩)
  exact owned_of_replay (replay_unseeded (nodup_addresses hl))

/-- The `n` bytes at `output` are the first of the keystream, nothing else in the process
changes, the key is the next two blocks and the counter has moved on by all of them. -/
structure Delivered (s s' : Kernel L) (output : Word) (n : ℕ) : Prop where
  bytes : ∀ k < n, s'.user (output + BitVec.ofNat 32 k) =
    keystream s.prng.key s.prng.counter k
  elsewhere : ∀ x, n ≤ (x - output).toNat → s'.user x = s.user x
  key : ∀ i : Fin 32, s'.prng.key i =
    keystream s.prng.key s.prng.counter (16 * numblocks n + i.val)
  counter : s'.prng.counter = Counter.incrctr^[numblocks n + 2] s.prng.counter

theorem delivered_of_sees {s' : Kernel L} {free : List (PageAddr L)}
    {mem : PageAddr L → Page} {events : List (Event Word)} (hn : n < 4096)
    (h : Sees s' (s.view.served n (s.view.delivered output n) free mem events)) :
    Delivered s s' output n := by
  have huser : s'.user = s.view.delivered output n := congrArg View.user h.view_eq
  refine ⟨fun k hk => ?_, fun x hx => ?_, fun i => ?_, ?_⟩
  · have hoff : (output + BitVec.ofNat 32 k - output).toNat = k := by
      rw [add_sub_cancel_left, BitVec.toNat_ofNat]
      omega
    rw [huser, View.delivered, hoff, if_pos hk]
    rfl
  · rw [huser, View.delivered, if_neg (by omega)]
    rfl
  · rw [h.prng]
    rfl
  · rw [h.prng]
    rfl

theorem replay_request {d a b q : Word} (h : [d, a, b, q].Nodup) :
    replay [] [.take d, .take a, .take b, .take q, .give b, .give a, .take a, .take b, .give b,
      .give a, .give q, .give d] = some [] := by
  simp only [List.nodup_cons, List.mem_cons, List.not_mem_nil, or_false, not_or] at h
  obtain ⟨⟨hda, hdb, hdq⟩, ⟨hab, haq⟩, hbq, -⟩ := h
  simp [replay, Ne.symm hda, Ne.symm hdb, Ne.symm hdq, Ne.symm hab, Ne.symm haq, Ne.symm hbq, haq,
    hbq]

theorem prngrand_served (output : Word) (h : Ready s n) (hn : 0 < n) (hn' : n < 4096)
    (hw : numblocks n ≠ s.prng.counter.wrapDistance) :
    Returns (prngrand output n) s fun _ s' => Delivered s s' output n ∧
      ∃ t, s'.heap.trace = s.heap.trace ++ t ∧ Balanced t := by
  obtain ⟨d, a, b, q, rest, hl⟩ := h.four hn
  obtain ⟨r, s', hrun, free, mem, hsees⟩ := generate_sees output h.sees hl h.reseeded h.seeded
    hn hn' (mt h.c0_eq_zero_iff.mp hw)
  refine ⟨r, s', by rw [prngrand_eq_generate h.unlocked h.notDue, hrun],
    delivered_of_sees hn' hsees, _, congrArg View.trace hsees.view_eq, ?_⟩
  exact balanced_of_replay (replay_request (nodup_addresses hl))

def Serves (s : Kernel L) (output : Word) (n : ℕ) : Prop :=
  Returns (prngrand output n) s fun _ s' => Delivered s s' output n

theorem serves_iff (s : Kernel L) (output : Word) (n : ℕ) (h : Ready s n) :
    Serves s output n ↔
      0 < n ∧ n < 4096 ∧ numblocks n ≠ s.prng.counter.wrapDistance := by
  constructor
  · intro hserves
    by_contra hcond
    rcases Nat.eq_zero_or_pos n with rfl | hn
    · exact (prngrand_zero output h).not_returns hserves
    rcases Nat.lt_trichotomy 4096 n with hlt | rfl | hlt
    · exact (prngrand_long output h hlt).not_returns hserves
    · by_cases hw : numblocks 4096 = s.prng.counter.wrapDistance
      · exact (prngrand_unseeded output h hn le_rfl hw).not_returns hserves
      · exact (prngrand_page output h hw).not_returns hserves
    · have hw : numblocks n = s.prng.counter.wrapDistance := by
        by_contra hw
        exact hcond ⟨hn, hlt, hw⟩
      exact (prngrand_unseeded output h hn hlt.le hw).not_returns hserves
  · rintro ⟨hn, hn', hw⟩
    exact (prngrand_served output h hn hn' hw).mono fun _ s' hs' => hs'.1

theorem ready_atRest {n : ℕ} (hn : pagesNeeded n ≤ 63) (hsize : n ≤ 2 ^ 20) :
    Ready (Kernel.atRest Prng.seeded FreeList.least) n where
  unlocked _ := rfl
  reseeded := by decide
  seeded := by decide
  notDue := by decide
  size := hsize
  pages := hn

theorem serves_iff_atRest :
    Serves (Kernel.atRest Prng.seeded FreeList.least) 0x1000 10 ↔
      0 < 10 ∧ 10 < 4096 ∧ numblocks 10 ≠ Prng.seeded.counter.wrapDistance :=
  serves_iff _ 0x1000 10 (ready_atRest (by decide) (by decide))

theorem not_serves_second_page :
    ¬ Serves (Kernel.atRest Prng.seeded FreeList.least) 0x1000 4097 :=
  (prngrand_long _ (ready_atRest (by decide) (by decide)) (by decide)).not_returns

/-- However the call ends, it has only given back pages of its own, each once; it does
not end in `kfree` or in undefined behaviour, and once it returns nothing is left. -/
def FreesOwnPages (s : Kernel L) (output : Word) (n : ℕ) : Prop :=
  Ends (prngrand output n) s
    (fun _ s' => ∃ t, s'.heap.trace = s.heap.trace ++ t ∧ Balanced t)
    (fun e s' => e ≠ .panic "kfree" ∧ (∀ u, e ≠ .undefined u) ∧
      ∃ t, s'.heap.trace = s.heap.trace ++ t ∧ Owned t)

def GivesBackAll (s : Kernel L) (output : Word) (n : ℕ) : Prop :=
  Returns (prngrand output n) s fun _ s' =>
    ∃ t, s'.heap.trace = s.heap.trace ++ t ∧ Balanced t

theorem not_freesOwnPages_of_stops {E : Stop → Prop}
    (h : Stops (prngrand output n) s fun e _ => E e)
    (hE : ∀ e, E e → e = .panic "kfree" ∨ ∃ u, e = .undefined u) :
    ¬ FreesOwnPages s output n := by
  intro hf
  obtain ⟨e, s', he, hk, hu, -⟩ := hf.of_stops h
  rcases hE e he with rfl | ⟨u, rfl⟩
  · exact hk rfl
  · exact hu u rfl

theorem freesOwnPages_of_unseeded (output : Word) (h : Ready s n) (hn : 0 < n) (hn' : n ≤ 4096)
    (hw : numblocks n = s.prng.counter.wrapDistance) : FreesOwnPages s output n := by
  refine Stops.ends ((prngrand_unseeded output h hn hn' hw).mono ?_)
  rintro e s' ⟨rfl, ht⟩
  exact ⟨by decide, fun u => by simp, ht⟩

/-- Of the calls that stop, only those that find the counter cleared have given back
nothing but their own pages; they keep the pages they hold. -/
theorem freesOwnPages_iff (s : Kernel L) (output : Word) (n : ℕ) (h : Ready s n) :
    (FreesOwnPages s output n ↔ 0 < n ∧
      (n < 4096 ∨ n = 4096 ∧ numblocks 4096 = s.prng.counter.wrapDistance)) ∧
    (GivesBackAll s output n ↔
      0 < n ∧ n < 4096 ∧ numblocks n ≠ s.prng.counter.wrapDistance) := by
  have hreturns : 0 < n → n < 4096 → numblocks n ≠ s.prng.counter.wrapDistance →
      GivesBackAll s output n := fun hn hn' hw =>
    (prngrand_served output h hn hn' hw).mono fun _ s' hs' => hs'.2
  rcases Nat.eq_zero_or_pos n with rfl | hn
  · have hstop := prngrand_zero output h
    refine ⟨iff_of_false (not_freesOwnPages_of_stops hstop fun e he => Or.inl he) (by omega),
      iff_of_false hstop.not_returns (by omega)⟩
  rcases Nat.lt_trichotomy 4096 n with hlt | rfl | hlt
  · have hstop := prngrand_long output h hlt
    refine ⟨iff_of_false (not_freesOwnPages_of_stops hstop fun e he => Or.inr ⟨_, he⟩) (by omega),
      iff_of_false hstop.not_returns (by omega)⟩
  · by_cases hw : numblocks 4096 = s.prng.counter.wrapDistance
    · exact ⟨iff_of_true (freesOwnPages_of_unseeded output h hn le_rfl hw) ⟨hn, Or.inr ⟨rfl, hw⟩⟩,
        iff_of_false (prngrand_unseeded output h hn le_rfl hw).not_returns (by omega)⟩
    · have hstop := prngrand_page output h hw
      refine ⟨iff_of_false (not_freesOwnPages_of_stops hstop fun e he => Or.inl he) ?_,
        iff_of_false hstop.not_returns (by omega)⟩
      rintro ⟨-, hlt | ⟨-, he⟩⟩
      · omega
      · exact hw he
  · by_cases hw : numblocks n = s.prng.counter.wrapDistance
    · exact ⟨iff_of_true (freesOwnPages_of_unseeded output h hn hlt.le hw) ⟨hn, Or.inl hlt⟩,
        iff_of_false (prngrand_unseeded output h hn hlt.le hw).not_returns fun hc => hc.2.2 hw⟩
    · have hall := hreturns hn hlt hw
      exact ⟨iff_of_true hall.ends ⟨hn, Or.inl hlt⟩, iff_of_true hall ⟨hn, hlt, hw⟩⟩

theorem freesOwnPages_iff_atRest :
    (FreesOwnPages (Kernel.atRest Prng.seeded FreeList.least) 0x1000 10 ↔ 0 < 10 ∧
      (10 < 4096 ∨ 10 = 4096 ∧ numblocks 4096 = Prng.seeded.counter.wrapDistance)) ∧
    (GivesBackAll (Kernel.atRest Prng.seeded FreeList.least) 0x1000 10 ↔
      0 < 10 ∧ 10 < 4096 ∧ numblocks 10 ≠ Prng.seeded.counter.wrapDistance) :=
  freesOwnPages_iff _ 0x1000 10 (ready_atRest (by decide) (by decide))

theorem not_freesOwnPages_page :
    ¬ FreesOwnPages (Kernel.atRest Prng.seeded FreeList.least) 0x1000 4096 :=
  not_freesOwnPages_of_stops (prngrand_page _ (ready_atRest (by decide) (by decide)) (by decide))
    fun _ he => Or.inl he

end Xv6Prng
