import Xv6Prng.GenBlocks

/-!
# One request, from `prngrand` to the memory of the process

A request on a seeded generator takes a page for pointers, has `prngranddata` fill output
pages, copies them out and frees them. The stages are specified one after the other on
views: the new key (`rekey_sees`), the copy from block pages to output pages
(`copyLoop_sees`), the freeing loop, and the loop that hands the pages out.
-/

namespace Xv6Prng

open ByteWords Halting Ownership Function

variable {L : Layout}

def View.rekeyed (v : View L) (a b : PageAddr L) (mem : PageAddr L → Page) : View L where
  prng := (v.prng.setCounter (Counter.incrctr^[2] v.prng.counter)).setKey fun i =>
    keystream v.prng.key v.prng.counter i.val
  ticks := v.ticks
  user := v.user
  free := v.free
  mem := mem
  trace := v.trace ++ [.take a.val, .take b.val, .give b.val, .give a.val]

section Rekey

variable {s : Kernel L} {v : View L} {a b : PageAddr L} {rest : List (PageAddr L)}

theorem installKey_sees (hs : Sees s v) (p : PageAddr L) :
    Returns (installKey p.val) s fun _ s' =>
      Sees s' (v.setKey fun i => byteAt (v.mem p) i.val) := by
  refine Returns.bind_of_eq (pageAt_apply p) ⟨⟨⟩, _, EStateM.run_modify .., hs.unlocked, ?_⟩
  rw [← hs.view_eq]
  rfl

theorem rekey_sees (hs : Sees s v) (hfree : v.free = a :: b :: rest)
    (hc : v.prng.counter.c0 ≠ 0) :
    Returns rekey s fun _ s' =>
      ∃ mem, (∀ q, q ≠ a → q ≠ b → mem q = v.mem q) ∧ Sees s' (v.rekeyed a b mem) := by
  have hnodup := hs.free_nodup
  rw [hfree, List.nodup_cons, List.nodup_cons] at hnodup
  obtain ⟨ha, hb, -⟩ := hnodup
  have hsplit : v.free = a :: ([b] ++ rest) := hfree
  refine (genPages_sees hs hsplit hc (by omega) rfl).bind fun r s₂ h₂ => ?_
  obtain ⟨rfl, mem, hmem, h₂⟩ := h₂
  have hentry : loadWord (mem r) 0 = b.val := hmem.entry 0 b rfl
  have hkey (i : Fin 32) : byteAt (mem b) i.val = keystream v.prng.key v.prng.counter i.val := by
    have hi := i.isLt
    rw [byteAt_of_lt _ (by omega), hmem.data 0 b rfl, if_pos (by simp only; omega)]
    simp only [Nat.mul_zero, Nat.zero_add]
  refine Returns.bind_of_eq (loadPtr_sees h₂ r (by omega) hentry) ?_
  refine (installKey_sees h₂ b).bind fun _ s₃ h₃ => ?_
  refine Returns.bind_of_eq (loadPtr_sees h₃ r (by omega) hentry) ?_
  refine (kfree_sees h₃ hb).bind fun _ s₄ h₄ => ?_
  obtain ⟨page, h₄⟩ := h₄
  refine (kfree_sees h₄ ha).mono fun _ s₅ h₅ => ?_
  obtain ⟨page', h₅⟩ := h₅
  refine ⟨update (update mem b page) r page', fun q hqa hqb => ?_,
    h₅.unlocked, h₅.view_eq.trans ?_⟩
  · rw [update_of_ne hqa, update_of_ne hqb, hmem.other q hqa (by simpa using hqb)]
  · ext1
    · simp only [View.give, View.genPages, View.rekeyed, View.setKey, hkey]
    · rfl
    · rfl
    · exact hfree.symm
    · rfl
    · simp [View.give, View.genPages, View.rekeyed, View.setKey]

theorem rekey_unseeded (hs : Sees s v) (hfree : v.free = a :: rest)
    (hc : v.prng.counter.c0 = 0) :
    Stops (rekey (L := L)) s fun e s' =>
      e = .panic "prnggenblocks: called with non-seeded generator." ∧
        s'.heap.trace = v.trace ++ [.take a.val] :=
  (genPages_unseeded 2 hs hfree hc).bind

end Rekey

def copyMem (mem : PageAddr L → Page) (out q b : PageAddr L) (j : ℕ) : PageAddr L → Page :=
  Function.update (Function.update mem q fun o => if o.val < j then mem b o else 0) out
    (storeWord (mem out) 0 q.val)

/-- The view after `j` bytes: the first output page `q` is entered in `out` and holds the
first `j` bytes of the block page `b`. -/
def View.copied (w : View L) (out q b : PageAddr L) (rest : List (PageAddr L)) (j : ℕ) :
    View L :=
  (w.take q rest).setMem (copyMem w.mem out q b j)

variable {q₂ : PageAddr L} {mem : PageAddr L → Page} {pages : Word × Word}

section Copy

variable {s : Kernel L} {w : View L} {out arr q b : PageAddr L} {rest : List (PageAddr L)}
  {j : ℕ}

theorem copyMem_of_ne {p : PageAddr L} (hout : p ≠ out) (hq : p ≠ q) :
    copyMem mem out q b j p = mem p := by
  rw [copyMem, update_of_ne hout, update_of_ne hq]

theorem copyMem_target (hq : q ≠ out) :
    copyMem mem out q b j q = fun o => if o.val < j then mem b o else 0 := by
  rw [copyMem, update_of_ne hq, update_self]

theorem copyMem_out (mem : PageAddr L → Page) :
    copyMem mem out q b j out = storeWord (mem out) 0 q.val := by
  rw [copyMem, update_self]

theorem copyMem_succ (hq : q ≠ out) (o : Fin 4096) :
    update (copyMem mem out q b o.val) q
        (update (copyMem mem out q b o.val q) o (mem b o)) =
      copyMem mem out q b (o.val + 1) := by
  rw [copyMem_target hq, copyMem, copyMem, update_comm hq.symm, update_idem]
  congr 2
  funext i
  by_cases hi : i = o
  · subst hi
    simp
  · have hne : i.val ≠ o.val := fun h => hi (Fin.ext h)
    rw [update_of_ne hi]
    congr 1
    rw [eq_iff_iff]
    omega

theorem copyPages_first (hs : Sees s w) (hfree : w.free = q :: rest)
    (hb : loadWord (w.mem arr) 0 = b.val) (hout : out ≠ q) (harr : arr ≠ out) (harrq : arr ≠ q) :
    Returns (copyPages out arr 0 pages) s fun r s' =>
      r = (q.val, b.val) ∧ Sees s' (w.copied out q b rest 0) := by
  rw [copyPages, if_pos rfl]
  refine (zalloc_sees _ hs hfree).bind fun r s₁ h₁ => ?_
  obtain ⟨rfl, h₁⟩ := h₁
  refine (storePtr_sees h₁ out (by omega) _).bind fun _ s₂ h₂ => ?_
  have hview : (((w.take r rest).writePage r fun _ => 0).writePage out
      (storeWord (((w.take r rest).writePage r fun _ => 0).mem out) 0 r.val)) =
      w.copied out r b rest 0 := by
    simp [View.copied, View.writePage, View.setMem, copyMem, View.take, update_of_ne hout]
  rw [hview] at h₂
  have hentry : loadWord ((w.copied out r b rest 0).mem arr) 0 = b.val := by
    rw [← hb]
    exact congrArg (loadWord · 0) (copyMem_of_ne harr harrq)
  refine Returns.bind_of_eq (loadPtr_sees h₂ arr (by omega) hentry) (returns_pure ⟨rfl, h₂⟩)

theorem copyByte_sees (hq : q ≠ out) (hbo : b ≠ out) (hbq : b ≠ q) (hj : j < 4096)
    (hpages : Returns (copyPages out arr j pages) s fun r s' =>
      r = (q.val, b.val) ∧ Sees s' (w.copied out q b rest j)) :
    Returns (copyByte out arr j pages) s fun r s' =>
      r = (q.val, b.val) ∧ Sees s' (w.copied out q b rest (j + 1)) := by
  refine hpages.bind fun r s₁ h₁ => ?_
  obtain ⟨rfl, h₁⟩ := h₁
  refine Returns.bind_of_eq (loadByte_sees h₁ b ⟨j, hj⟩) ?_
  refine (storeByte_sees h₁ q ⟨j, hj⟩ _).bind fun _ s₂ h₂ => returns_pure ⟨rfl, ?_⟩
  have hbyte : (w.copied out q b rest j).mem b ⟨j, hj⟩ = w.mem b ⟨j, hj⟩ :=
    congrFun (copyMem_of_ne hbo hbq) _
  have hview : (w.copied out q b rest j).writePage q
      (update ((w.copied out q b rest j).mem q) ⟨j, hj⟩ (w.mem b ⟨j, hj⟩)) =
      w.copied out q b rest (j + 1) := by
    simp only [View.copied, View.writePage, View.setMem]
    rw [copyMem_succ hq ⟨j, hj⟩]
  rwa [hbyte, hview] at h₂

theorem copyLoop_step (hq : q ≠ out) (hbo : b ≠ out) (hbq : b ≠ q) (hfree : w.free = q :: rest)
    (hb : loadWord (w.mem arr) 0 = b.val) (harr : arr ≠ out) (harrq : arr ≠ q) (hj : j < 4096)
    (hs : (j = 0 ∧ Sees s w) ∨
      (0 < j ∧ pages = (q.val, b.val) ∧ Sees s (w.copied out q b rest j))) :
    Returns (copyByte out arr j pages) s fun r s' =>
      (j + 1 = 0 ∧ Sees s' w) ∨
        (0 < j + 1 ∧ r = (q.val, b.val) ∧ Sees s' (w.copied out q b rest (j + 1))) := by
  refine Returns.mono (P := fun r s' => r = (q.val, b.val) ∧
    Sees s' (w.copied out q b rest (j + 1))) ?_ fun r s' h => Or.inr ⟨by omega, h⟩
  apply copyByte_sees hq hbo hbq hj
  rcases hs with ⟨rfl, hs⟩ | ⟨hpos, rfl, hs⟩
  · exact copyPages_first hs hfree hb hq.symm harr harrq
  · rw [copyPages, if_neg (by omega)]
    exact returns_pure ⟨rfl, hs⟩

theorem copyLoop_sees {n : ℕ} (hs : Sees s w) (hfree : w.free = q :: rest)
    (hb : loadWord (w.mem arr) 0 = b.val) (hq : q ≠ out) (hbo : b ≠ out) (hbq : b ≠ q)
    (harr : arr ≠ out) (harrq : arr ≠ q) (hn : 0 < n) (hn' : n ≤ 4096) :
    Returns (forLoop (copyByte out arr) 0 n (0, 0)) s fun _ s' =>
      Sees s' (w.copied out q b rest n) := by
  refine Returns.mono (forLoop_returns (fun j pages s' => (j = 0 ∧ Sees s' w) ∨
    (0 < j ∧ pages = (q.val, b.val) ∧ Sees s' (w.copied out q b rest j))) (Or.inl ⟨rfl, hs⟩)
    fun j pages s' _ hj h => copyLoop_step hq hbo hbq hfree hb harr harrq (by omega) h) ?_
  rintro _ s' (⟨h0, -⟩ | ⟨-, -, h⟩)
  · omega
  · simpa using h

theorem loadByte_outside (p : PageAddr L) {i : ℕ} (hi : 4096 ≤ i) :
    Stops (loadByte (L := L) p.val i) s fun e _ => e = .undefined .outOfPage := by
  refine Stops.bind_of_eq (pageAt_apply p) (stops_get_bind ?_)
  rw [load?_of_le _ hi]
  exact stops_throw rfl

theorem copyLoop_stops {n : ℕ} {b₂ : PageAddr L} (hs : Sees s w) (hfree : w.free = q :: q₂ :: rest)
    (hb : loadWord (w.mem arr) 0 = b.val) (hb₂ : loadWord (w.mem arr) 1 = b₂.val) (hq : q ≠ out)
    (hbo : b ≠ out) (hbq : b ≠ q) (harr : arr ≠ out) (harrq : arr ≠ q) (harrq₂ : arr ≠ q₂)
    (hn : 4096 < n) :
    Stops (forLoop (copyByte out arr) 0 n (0, 0)) s fun e _ => e = .undefined .outOfPage := by
  refine forLoop_stops (fun j pages s' => (j = 0 ∧ Sees s' w) ∨
    (0 < j ∧ pages = (q.val, b.val) ∧ Sees s' (w.copied out q b (q₂ :: rest) j)))
    (Or.inl ⟨rfl, hs⟩) hn
    (fun j pages s' _ hj h => copyLoop_step hq hbo hbq hfree hb harr harrq (by omega) h) ?_
  rintro pages s' (⟨h0, -⟩ | ⟨-, -, h⟩)
  · omega
  refine Returns.stops_bind (P := fun r _ => r.2 = b₂.val) ?_ fun r s'' hr => ?_
  · rw [Nat.zero_add, copyPages, if_pos rfl]
    refine (zalloc_sees _ h rfl).bind fun r s₁ h₁ => ?_
    obtain ⟨rfl, h₁⟩ := h₁
    refine (storePtr_sees h₁ out (by omega) _).bind fun _ s₂ h₂ => ?_
    refine Returns.bind_of_eq (loadPtr_sees h₂ arr (by omega) ?_) (returns_pure rfl)
    refine (congrArg (loadWord · 1) ?_).trans hb₂
    simp only [View.writePage, View.take, View.copied, View.setMem]
    rw [update_of_ne harr, update_of_ne harrq₂, copyMem_of_ne harr harrq]
  · rw [hr]
    exact (loadByte_outside b₂ (by omega)).bind

end Copy

/-- A view in which the generator has moved on by `nb` blocks, with the given memory, free
list and additions to the trace. -/
def View.filled (v : View L) (nb : ℕ) (free : List (PageAddr L)) (mem : PageAddr L → Page)
    (events : List (Event Word)) : View L where
  prng := v.prng.setCounter (Counter.incrctr^[nb] v.prng.counter)
  ticks := v.ticks
  user := v.user
  free := free
  mem := mem
  trace := v.trace ++ events

section Fill

variable {s : Kernel L} {v : View L} {out a b q : PageAddr L} {rest : List (PageAddr L)} {n : ℕ}

theorem page_ne_zero (p : PageAddr L) : p.val ≠ 0 := by
  intro h
  exact not_isPage_zero L (h ▸ p.property)

theorem freeLoop_one (hs : Sees s v) (h0 : loadWord (v.mem a) 0 = b.val)
    (h1 : loadWord (v.mem a) 1 = 0) (hab : a ≠ b) (hb : b ∉ v.free) :
    Returns (forBreak (freeEntry a) 0 1024 ()) s fun _ s' => ∃ page, Sees s' (v.give b page) := by
  obtain ⟨_, s₁, hrun, page, h₁⟩ := kfree_sees hs hb
  have hstep : (freeEntry a 0 ()).run s = .ok (.yield ()) s₁ := by
    rw [freeEntry, bind_ok (loadPtr_sees hs a (by omega) h0), if_neg (page_ne_zero b),
      bind_ok hrun, EStateM.run_pure]
  have hentry : loadWord ((v.give b page).mem a) 1 = 0 := by
    refine (congrArg (loadWord · 1) ?_).trans h1
    exact update_of_ne hab _ _
  have hlast : (freeEntry a 1 ()).run s₁ = .ok (.done ()) s₁ := by
    rw [freeEntry, bind_ok (loadPtr_sees h₁ a (by omega) hentry), if_pos rfl, EStateM.run_pure]
  refine ⟨(), s₁, ?_, page, h₁⟩
  rw [forBreak_yield hstep, forBreak_done hlast]

theorem fillOutput_sees (hs : Sees s v) (hfree : v.free = a :: b :: q :: rest)
    (hout : out ∉ v.free) (hc : v.prng.counter.c0 ≠ 0) (hn : 0 < n) (hn' : n ≤ 4096) :
    Returns (fillOutput n out) s fun _ s' => ∃ mem,
      loadWord (mem out) 0 = q.val ∧ loadWord (mem out) 1 = loadWord (v.mem out) 1 ∧
      (∀ o : Fin 4096, o.val < n → mem q o = keystream v.prng.key v.prng.counter o.val) ∧
      Sees s' (v.filled (numblocks n) (a :: b :: rest) mem
        [.take a.val, .take b.val, .take q.val, .give b.val, .give a.val]) := by
  have hnodup := hs.free_nodup
  rw [hfree] at hnodup hout
  simp only [List.nodup_cons, List.mem_cons, not_or] at hnodup hout
  obtain ⟨⟨hab, haq, har⟩, ⟨hbq, hbr⟩, -⟩ := hnodup
  obtain ⟨hoa, hob, hoq, -⟩ := hout
  have hsplit : v.free = a :: ([b] ++ (q :: rest)) := hfree
  have hlen : [b].length = (numblocks n + 255) / 256 := by
    have := numblocks_pos hn
    have := numblocks_le_256 hn'
    simp only [List.length_singleton]
    omega
  refine (genPages_sees hs hsplit hc ?_ hlen).bind fun r s₁ h₁ => ?_
  · have := numblocks_le_256 hn'
    omega
  obtain ⟨rfl, mem, hmem, h₁⟩ := h₁
  have h0 : loadWord (mem r) 0 = b.val := hmem.entry 0 b rfl
  have h1 : loadWord (mem r) 1 = 0 := hmem.unused 1 le_rfl (by omega)
  refine (copyLoop_sees h₁ rfl h0 (Ne.symm hoq) (Ne.symm hob) hbq (Ne.symm hoa) haq hn
    hn').bind fun _ s₂ h₂ => ?_
  have hcopied : copyMem mem out q b n r = mem r := copyMem_of_ne (Ne.symm hoa) haq
  refine (freeLoop_one h₂ ((congrArg (loadWord · 0) hcopied).trans h0)
    ((congrArg (loadWord · 1) hcopied).trans h1) hab hbr).bind fun _ s₃ h₃ => ?_
  obtain ⟨page, h₃⟩ := h₃
  refine (kfree_sees h₃ ?_).mono fun _ s₄ h₄ => ?_
  · exact fun h => (List.mem_cons.mp h).elim hab har
  obtain ⟨page', h₄⟩ := h₄
  have hother (p : PageAddr L) (hpa : p ≠ r) (hpb : p ≠ b) :
      update (update (copyMem mem out q b n) b page) r page' p =
        copyMem mem out q b n p := by
    rw [update_of_ne hpa, update_of_ne hpb]
  refine ⟨update (update (copyMem mem out q b n) b page) r page', ?_, ?_, ?_,
    h₄.unlocked, h₄.view_eq.trans ?_⟩
  · rw [hother out hoa hob, copyMem_out, loadWord_storeWord_self _ _ (by omega)]
  · rw [hother out hoa hob, copyMem_out, loadWord_storeWord_ne _ _ (by omega) (by omega),
      hmem.other out hoa (by simpa using hob)]
  · intro o ho
    have hle := le_numblocks n
    rw [hother q (Ne.symm haq) (Ne.symm hbq), copyMem_target (Ne.symm hoq)]
    simp only [ho, if_true]
    rw [hmem.data 0 b rfl, if_pos (by omega)]
    simp only [Nat.mul_zero, Nat.zero_add]
  · ext1 <;> simp [View.give, View.copied, View.take, View.setMem, View.genPages, View.filled]

theorem fillOutput_zero (hs : Sees s v) (hfree : v.free = a :: rest) (hout : out ∉ v.free)
    (hc : v.prng.counter.c0 ≠ 0) :
    Returns (fillOutput 0 out) s fun _ s' => ∃ mem, mem out = v.mem out ∧
      Sees s' (v.filled 0 (a :: rest) mem [.take a.val, .give a.val]) := by
  have ha : a ∉ rest := (List.nodup_cons.mp (hfree ▸ hs.free_nodup)).1
  have hoa : out ≠ a := fun h => hout (by rw [hfree, h]; exact List.mem_cons_self)
  have hsplit : v.free = a :: ([] ++ rest) := hfree
  refine (genPages_sees (n := 0) hs hsplit hc (by omega) rfl).bind fun r s₁ h₁ => ?_
  obtain ⟨rfl, mem, hmem, h₁⟩ := h₁
  have h0 : loadWord (mem r) 0 = 0 := hmem.unused 0 le_rfl (by omega)
  refine Returns.bind_of_eq (EStateM.run_pure (0, 0) s₁) ?_
  have hdone : (freeEntry r 0 ()).run s₁ = .ok (.done ()) s₁ := by
    rw [freeEntry, bind_ok (loadPtr_sees h₁ r (by omega) h0), if_pos rfl, EStateM.run_pure]
  refine Returns.bind_of_eq (forBreak_done hdone) ?_
  refine (kfree_sees h₁ ha).mono fun _ s₂ h₂ => ?_
  obtain ⟨page, h₂⟩ := h₂
  refine ⟨update mem r page, ?_, h₂.unlocked, h₂.view_eq.trans ?_⟩
  · rw [update_of_ne hoa, hmem.other out hoa List.not_mem_nil]
  · ext1 <;> simp [View.give, View.genPages, View.filled]

theorem fillOutput_stops {pages : List (PageAddr L)} (hs : Sees s v)
    (hfree : v.free = a :: (pages ++ q :: q₂ :: rest)) (hout : out ∉ v.free)
    (hc : v.prng.counter.c0 ≠ 0) (hn : 4096 < n) (hn' : n ≤ 2 ^ 20)
    (hlen : pages.length = (numblocks n + 255) / 256) :
    Stops (fillOutput n out) s fun e _ => e = .undefined .outOfPage := by
  have hnb := le_numblocks n
  have hnb' := numblocks_le (n := n) (by omega)
  rw [Int.toNat_natCast] at hnb'
  obtain ⟨b, b₂, more, rfl⟩ : ∃ b b₂ more, pages = b :: b₂ :: more := by
    match pages, hlen with
    | [], h => simp at h; omega
    | [_], h => simp at h; omega
    | b :: b₂ :: more, _ => exact ⟨b, b₂, more, rfl⟩
  have hnodup := hs.free_nodup
  rw [hfree] at hnodup hout
  simp only [List.nodup_cons, List.cons_append, List.mem_cons, List.mem_append, not_or]
    at hnodup hout
  obtain ⟨⟨hab, -, -, haq, haq₂, -⟩, ⟨-, -, hbq, -⟩, -⟩ := hnodup
  obtain ⟨hoa, hob, -, -, hoq, -⟩ := hout
  refine (genPages_sees hs hfree hc (by omega) hlen).stops_bind fun r s₁ h₁ => ?_
  obtain ⟨rfl, mem, hmem, h₁⟩ := h₁
  exact (copyLoop_stops h₁ rfl (hmem.entry 0 b rfl) (hmem.entry 1 b₂ rfl) (Ne.symm hoq)
    (Ne.symm hob) hbq (Ne.symm hoa) haq haq₂ hn).bind

end Fill

section Generate

variable {s : Kernel L} {v : View L} {d a b q : PageAddr L} {rest : List (PageAddr L)} {n : ℕ}
  {output : Word}

/-- A view after a request: the generator has moved on by the blocks of `n` bytes and two
more, which are the key. -/
def View.served (v : View L) (n : ℕ) (user : Word → Byte) (free : List (PageAddr L))
    (mem : PageAddr L → Page) (events : List (Event Word)) : View L where
  prng := (v.prng.setCounter (Counter.incrctr^[numblocks n + 2] v.prng.counter)).setKey fun i =>
    keystream v.prng.key v.prng.counter (16 * numblocks n + i.val)
  ticks := v.ticks
  user := user
  free := free
  mem := mem
  trace := v.trace ++ events

def View.delivered (v : View L) (output : Word) (n : ℕ) : Word → Byte := fun x =>
  if (x - output).toNat < n then keystream v.prng.key v.prng.counter (x - output).toNat
  else v.user x

theorem View.rekeyed_filled (v : View L) (n : ℕ) (free : List (PageAddr L))
    (mem mem' : PageAddr L → Page) (events : List (Event Word)) :
    (v.filled (numblocks n) free mem events).rekeyed a b mem' =
      v.served n v.user free mem'
        (events ++ [.take a.val, .take b.val, .give b.val, .give a.val]) := by
  ext1
  · simp only [View.rekeyed, View.filled, View.served, Prng.setCounter, Prng.setKey, keystream,
      CounterMode.byte_iterate, ← iterate_add_apply, Nat.add_comm 2]
  · rfl
  · rfl
  · rfl
  · rfl
  · simp [View.rekeyed, View.filled, View.served]

theorem prngranddata_eq (hn : n ≤ 2 ^ 20) (out : PageAddr L) :
    prngranddata n (some out) = (do fillOutput n out; rekey) := by
  rw [prngranddata, if_neg (by omega), Int.toNat_natCast]

theorem prngranddata_sees {out : PageAddr L} (hs : Sees s v)
    (hfree : v.free = a :: b :: q :: rest) (hout : out ∉ v.free) (hc : v.prng.counter.c0 ≠ 0)
    (hn : 0 < n) (hn' : n ≤ 4096)
    (hc' : (Counter.incrctr^[numblocks n] v.prng.counter).c0 ≠ 0) :
    Returns (prngranddata n (some out)) s fun _ s' => ∃ mem,
      loadWord (mem out) 0 = q.val ∧ loadWord (mem out) 1 = loadWord (v.mem out) 1 ∧
      (∀ o : Fin 4096, o.val < n → mem q o = keystream v.prng.key v.prng.counter o.val) ∧
      Sees s' (v.served n v.user (a :: b :: rest) mem
        [.take a.val, .take b.val, .take q.val, .give b.val, .give a.val,
          .take a.val, .take b.val, .give b.val, .give a.val]) := by
  have hnodup := hs.free_nodup
  rw [hfree] at hnodup
  simp only [List.nodup_cons, List.mem_cons, not_or] at hnodup
  obtain ⟨⟨-, haq, -⟩, ⟨hbq, -⟩, -⟩ := hnodup
  have hout' := hout
  rw [hfree] at hout'
  simp only [List.mem_cons, not_or] at hout'
  obtain ⟨hoa, hob, -⟩ := hout'
  rw [prngranddata_eq (by omega)]
  refine (fillOutput_sees hs hfree hout hc hn hn').bind fun _ s₁ h₁ => ?_
  obtain ⟨mem, h0, h1, hdata, h₁⟩ := h₁
  refine (rekey_sees h₁ rfl hc').mono fun _ s₂ h₂ => ?_
  obtain ⟨mem', hother, h₂⟩ := h₂
  have hmem (p : PageAddr L) (hpa : p ≠ a) (hpb : p ≠ b) : mem' p = mem p := hother p hpa hpb
  rw [View.rekeyed_filled] at h₂
  refine ⟨mem', ?_, ?_, fun o ho => ?_, h₂⟩
  · rw [hmem out hoa hob, h0]
  · rw [hmem out hoa hob, h1]
  · rw [hmem q (Ne.symm haq) (Ne.symm hbq)]
    exact hdata o ho

theorem copyToUser_sees (output : Word) (hs : Sees s v) (p : PageAddr L) (hn : 0 < n)
    (hn' : n ≤ 4096) :
    Returns (copyToUser output p.val n) s fun _ s' => Sees s' (v.setUser fun x =>
      if (x - output).toNat < n then byteAt (v.mem p) (x - output).toNat else v.user x) := by
  rw [copyToUser, if_neg (by omega)]
  refine Returns.bind_of_eq (pageAt_apply p) (returns_get_bind ?_)
  rw [if_pos hn']
  refine ⟨(), _, EStateM.run_set .., hs.unlocked, ?_⟩
  rw [← hs.view_eq]
  rfl

theorem View.setUser_delivered (v : View L) (output : Word) (hn' : n ≤ 4096)
    (hdata : ∀ o : Fin 4096, o.val < n → mem q o = keystream v.prng.key v.prng.counter o.val) :
    (fun x => if (x - output).toNat < n then byteAt (mem q) (x - output).toNat else v.user x) =
      v.delivered output n := by
  funext x
  unfold View.delivered
  by_cases hx : (x - output).toNat < n
  · rw [if_pos hx, if_pos hx, byteAt_of_lt _ (by omega), hdata _ hx]
  · rw [if_neg hx, if_neg hx]

theorem generate_step {E : Stop → Kernel L → Prop} (hs : Sees s v)
    (hfree : v.free = d :: rest) (hr : v.prng.reseedCtr ≠ 0)
    (hrest : ∀ s', Sees s' ((v.take d rest).writePage d fun _ => 0) →
      Stops (prngranddata n (some d)) s' E ∨
      Returns (prngranddata n (some d)) s' fun _ s'' =>
        Stops (do let _ ← forBreak (copyOut output d) 0 1024 n; kfree d.val) s'' E) :
    Stops (generate output n) s E := by
  apply stops_get_bind
  rw [hs.prng, if_neg hr]
  refine (zalloc_sees _ hs hfree).stops_bind fun r s₁ h₁ => ?_
  obtain ⟨rfl, h₁⟩ := h₁
  rw [Int.toNat_natCast]
  rcases hrest s₁ h₁ with h | h
  · exact h.bind
  · exact h.stops_bind fun _ s₂ h₂ => h₂

theorem generate_sees (output : Word) (hs : Sees s v) (hfree : v.free = d :: a :: b :: q :: rest)
    (hr : v.prng.reseedCtr ≠ 0) (hc : v.prng.counter.c0 ≠ 0) (hn : 0 < n) (hn' : n < 4096)
    (hc' : (Counter.incrctr^[numblocks n] v.prng.counter).c0 ≠ 0) :
    Returns (generate output n) s fun _ s' => ∃ free mem,
      Sees s' (v.served n (v.delivered output n) free mem
        [.take d.val, .take a.val, .take b.val, .take q.val, .give b.val, .give a.val,
          .take a.val, .take b.val, .give b.val, .give a.val, .give q.val, .give d.val]) := by
  have hnodup := hs.free_nodup
  rw [hfree] at hnodup
  obtain ⟨hd, hnodup⟩ := List.nodup_cons.mp hnodup
  have hdq : d ≠ q := fun h => hd (by simp [h])
  have hq : q ∉ a :: b :: rest := by
    simp only [List.nodup_cons, List.mem_cons, not_or] at hnodup ⊢
    obtain ⟨⟨-, haq, -⟩, ⟨hbq, -⟩, hqr, -⟩ := hnodup
    exact ⟨Ne.symm haq, Ne.symm hbq, hqr⟩
  have hd' : d ∉ q :: a :: b :: rest := by
    simp only [List.mem_cons, not_or] at hd ⊢
    tauto
  apply returns_get_bind
  rw [hs.prng, if_neg hr]
  refine (zalloc_sees _ hs hfree).bind fun r s₁ h₁ => ?_
  obtain ⟨rfl, h₁⟩ := h₁
  refine (prngranddata_sees h₁ rfl hd hc hn (by omega) hc').bind fun _ s₂ h₂ => ?_
  obtain ⟨mem, h0, -, hdata, h₂⟩ := h₂
  obtain ⟨_, s₃, hcopy, h₃⟩ := copyToUser_sees output h₂ q hn (by omega)
  obtain ⟨_, s₄, hkfree, page, h₄⟩ := kfree_sees h₃ hq
  have hstep : (copyOut output r 0 n).run s₂ = .ok (.done 0) s₄ := by
    have hdst : output + BitVec.ofNat 32 (0 * 4096) = output := by simp
    rw [copyOut, bind_ok (loadPtr_sees h₂ r (by omega) h0), if_pos hn', hdst, bind_ok hcopy,
      bind_ok hkfree, EStateM.run_pure]
  rw [Int.toNat_natCast]
  refine Returns.bind_of_eq (forBreak_done hstep) ?_
  refine (kfree_sees h₄ hd').mono fun _ s₅ h₅ => ?_
  obtain ⟨page', h₅⟩ := h₅
  refine ⟨r :: q :: a :: b :: rest, update (update mem q page) r page',
    h₅.unlocked, h₅.view_eq.trans ?_⟩
  have huser := View.setUser_delivered v output hn'.le hdata
  simp only [View.give, View.setUser, View.served, View.writePage, View.take] at huser ⊢
  rw [huser]
  simp

theorem generate_unseeded (hs : Sees s v) (hfree : v.free = d :: a :: b :: q :: rest)
    (hr : v.prng.reseedCtr ≠ 0) (hc : v.prng.counter.c0 ≠ 0) (hn : 0 < n) (hn' : n ≤ 4096)
    (hc' : (Counter.incrctr^[numblocks n] v.prng.counter).c0 = 0) :
    Stops (generate output n) s fun e s' =>
      e = .panic "prnggenblocks: called with non-seeded generator." ∧
        s'.heap.trace = v.trace ++ [.take d.val, .take a.val, .take b.val, .take q.val,
          .give b.val, .give a.val, .take a.val] := by
  have hd := (List.nodup_cons.mp (hfree ▸ hs.free_nodup)).1
  refine generate_step hs hfree hr fun s₁ h₁ => Or.inl ?_
  rw [prngranddata_eq (by omega)]
  refine (fillOutput_sees h₁ rfl hd hc hn hn').stops_bind fun _ s₂ h₂ => ?_
  obtain ⟨mem, -, -, -, h₂⟩ := h₂
  refine (rekey_unseeded h₂ rfl hc').mono fun e s' h => ⟨h.1, h.2.trans ?_⟩
  simp [View.filled, View.writePage, View.take]

theorem generate_long {pages : List (PageAddr L)} (hs : Sees s v)
    (hfree : v.free = d :: a :: (pages ++ q :: q₂ :: rest)) (hr : v.prng.reseedCtr ≠ 0)
    (hc : v.prng.counter.c0 ≠ 0) (hn : 4096 < n) (hn' : n ≤ 2 ^ 20)
    (hlen : pages.length = (numblocks n + 255) / 256) :
    Stops (generate output n) s fun e _ => e = .undefined .outOfPage := by
  have hd := (List.nodup_cons.mp (hfree ▸ hs.free_nodup)).1
  refine generate_step hs hfree hr fun s₁ h₁ => Or.inl ?_
  rw [prngranddata_eq hn']
  exact (fillOutput_stops h₁ rfl hd hc hn hn' hlen).bind

theorem copyOut_null (output : Word) (hs : Sees s v) {i : ℕ} (hi : i < 1024)
    (h0 : loadWord (v.mem d) i = 0) :
    Stops (copyOut output d i 0) s fun e _ => e = .panic "kfree" := by
  refine Stops.bind_of_eq (loadPtr_sees hs d hi h0) ?_
  rw [if_pos (by omega)]
  refine Stops.bind_of_eq (EStateM.run_pure () s) ?_
  exact (kfree_panic (not_isPage_zero L)).bind

theorem generate_zero (hs : Sees s v) (hfree : v.free = d :: a :: b :: rest)
    (hr : v.prng.reseedCtr ≠ 0) (hc : v.prng.counter.c0 ≠ 0) :
    Stops (generate output 0) s fun e _ => e = .panic "kfree" := by
  have hnodup := hs.free_nodup
  rw [hfree] at hnodup
  obtain ⟨hd, -⟩ := List.nodup_cons.mp hnodup
  have hda : d ≠ a := fun h => hd (by simp [h])
  have hdb : d ≠ b := fun h => hd (by simp [h])
  refine generate_step (n := 0) hs hfree hr fun s₁ h₁ => Or.inr ?_
  rw [prngranddata_eq (by omega)]
  refine (fillOutput_zero h₁ rfl hd hc).bind fun _ s₂ h₂ => ?_
  obtain ⟨mem, hmem, h₂⟩ := h₂
  refine (rekey_sees h₂ rfl hc).mono fun _ s₃ h₃ => ?_
  obtain ⟨mem', hother, h₃⟩ := h₃
  have h0 : loadWord (mem' d) 0 = 0 := by
    have hmem' : mem' d = fun _ => 0 := by
      rw [hother d hda hdb]
      exact hmem.trans (update_self ..)
    rw [hmem', loadWord_zero]
  obtain ⟨e, s', hrun, he⟩ := copyOut_null output h₃ (by omega) h0
  exact Stops.bind ⟨e, s', forBreak_error hrun, he⟩

theorem generate_page (hs : Sees s v) (hfree : v.free = d :: a :: b :: q :: rest)
    (hr : v.prng.reseedCtr ≠ 0) (hc : v.prng.counter.c0 ≠ 0)
    (hc' : (Counter.incrctr^[numblocks 4096] v.prng.counter).c0 ≠ 0) :
    Stops (generate output 4096) s fun e _ => e = .panic "kfree" := by
  have hnodup := hs.free_nodup
  rw [hfree] at hnodup
  obtain ⟨hd, hnodup⟩ := List.nodup_cons.mp hnodup
  have hdq : d ≠ q := fun h => hd (by simp [h])
  have hq : q ∉ a :: b :: rest := by
    simp only [List.nodup_cons, List.mem_cons, not_or] at hnodup ⊢
    obtain ⟨⟨-, haq, -⟩, ⟨hbq, -⟩, hqr, -⟩ := hnodup
    exact ⟨Ne.symm haq, Ne.symm hbq, hqr⟩
  refine generate_step (n := 4096) hs hfree hr fun s₁ h₁ => Or.inr ?_
  refine (prngranddata_sees h₁ rfl hd hc (by omega) le_rfl hc').mono fun _ s₂ h₂ => ?_
  obtain ⟨mem, h0, h1, -, h₂⟩ := h₂
  obtain ⟨_, s₃, hcopy, h₃⟩ := copyToUser_sees (n := 4096) _ h₂ q (by omega) le_rfl
  obtain ⟨_, s₄, hkfree, page, h₄⟩ := kfree_sees h₃ hq
  have hstep : (copyOut output d 0 4096).run s₂ = .ok (.yield 0) s₄ := by
    rw [copyOut, bind_ok (loadPtr_sees h₂ d (by omega) h0), if_neg (by omega), bind_ok hcopy,
      bind_ok hkfree, EStateM.run_pure]
  have hnull : loadWord (update mem q page d) 1 = 0 := by
    rw [update_of_ne hdq, h1]
    have hclear : ((v.take d (a :: b :: q :: rest)).writePage d fun _ => 0).mem d = fun _ => 0 :=
      update_self ..
    rw [hclear, loadWord_zero]
  obtain ⟨e, s', hrun, he⟩ := copyOut_null output h₄ (by omega) hnull
  refine Stops.bind ⟨e, s', ?_, he⟩
  rw [forBreak_yield hstep, forBreak_error hrun]

end Generate

end Xv6Prng
