import Xv6Prng.Kernel

/-!
# Access to pages, and what a request sees of the kernel

The accesses through `char *` and `char **` that `prng.c` makes, each with the condition
under which C defines it. A `View` is what a request depends on and changes: the
generator, the memory, the free list and the ghost record. It forgets the counters of
the entropy hook, so that `kalloc` and `kfree` have one outcome on views. `Sees s v` ties
a kernel with all locks free to its view.
-/

namespace Xv6Prng

open ByteWords Halting Ownership

variable {L : Layout}

def pageAt (v : Word) : KernelM L (PageAddr L) :=
  if h : IsPage L v then pure ⟨v, h⟩ else throw (.undefined .badPointer)

def loadByte (v : Word) (i : ℕ) : KernelM L Byte := do
  let p ← pageAt v
  let s ← get
  match load? (s.heap.mem p) i with
  | some b => pure b
  | none => throw (.undefined .outOfPage)

def storeByte (v : Word) (i : ℕ) (b : Byte) : KernelM L Unit := do
  let p ← pageAt v
  let s ← get
  match store? (s.heap.mem p) i b with
  | some page => set (s.setHeap (s.heap.write p page))
  | none => throw (.undefined .outOfPage)

def loadPtr (p : PageAddr L) (k : ℕ) : KernelM L Word := do
  let s ← get
  if 4 * k + 4 ≤ PGSIZE then pure (loadWord (s.heap.mem p) k) else throw (.undefined .outOfPage)

def storePtr (p : PageAddr L) (k : ℕ) (w : Word) : KernelM L Unit := do
  let s ← get
  if 4 * k + 4 ≤ PGSIZE then set (s.setHeap (s.heap.write p (storeWord (s.heap.mem p) k w)))
  else throw (.undefined .outOfPage)

def putBytes {n : ℕ} (page : Page) (off : ℕ) (bytes : Buffer n) : Page :=
  fun i => if h : off ≤ i.val ∧ i.val < off + n then bytes ⟨i.val - off, by omega⟩ else page i

def storeBytes {n : ℕ} (v : Word) (off : ℕ) (bytes : Buffer n) : KernelM L Unit := do
  let p ← pageAt v
  let s ← get
  if off + n ≤ PGSIZE then set (s.setHeap (s.heap.write p (putBytes (s.heap.mem p) off bytes)))
  else throw (.undefined .outOfPage)

def clearPage (p : PageAddr L) : KernelM L Unit :=
  modify fun s => s.setHeap (s.heap.write p fun _ => 0)

/-- The idiom `x = kalloc(); if (!x) panic(msg); memset(x, 0, 4096);`. -/
def zalloc (msg : String) : KernelM L (PageAddr L) := do
  match ← kalloc with
  | none => panic msg
  | some p => do
    clearPage p
    return p

/-- `memmove(dst, src, n)` from a page to the memory of the process; of no bytes it does
not touch its pointers. -/
def copyToUser (dst src : Word) (n : ℕ) : KernelM L Unit :=
  if n = 0 then pure ()
  else do
    let p ← pageAt src
    let s ← get
    if n ≤ PGSIZE then
      set (s.setUser fun a =>
        if (a - dst).toNat < n then byteAt (s.heap.mem p) (a - dst).toNat else s.user a)
    else throw (.undefined .outOfPage)

@[ext] structure View (L : Layout) where
  prng : Prng
  ticks : Word
  user : Word → Byte
  free : List (PageAddr L)
  mem : PageAddr L → Page
  trace : List (Event Word)

def Kernel.Unlocked (s : Kernel L) : Prop := ∀ l, s.locks l = false

def Layout.least : Layout := ⟨KERNLINK, by decide, fun _ _ => 0⟩

theorem isPage_least :
    ∀ k : Fin 64, IsPage .least (BitVec.ofNat 32 (0x80400000 + 4096 * k.val)) := by
  decide

def Layout.page (k : Fin 64) : PageAddr .least := ⟨_, isPage_least k⟩

theorem Layout.page_injective : Function.Injective Layout.page := by
  intro j k h
  have hv := congrArg (fun p => BitVec.toNat p.val) h
  have hj := j.isLt
  have hk := k.isLt
  simp only [Layout.page, BitVec.toNat_ofNat] at hv
  omega

def FreeList.least : FreeList .least where
  pages := ((List.finRange 64).tail).map Layout.page
  nodup := (List.nodup_finRange 64).tail.map Layout.page_injective

theorem FreeList.page_zero_notMem : Layout.page 0 ∉ FreeList.least.pages := by
  rw [FreeList.least, List.mem_map_of_injective Layout.page_injective]
  decide

def Kernel.atRest (prng : Prng) (free : FreeList L) : Kernel L where
  prng := prng
  entropy :=
    { pools := fun _ => EntropyPool.empty, memoryOperations := 0, kallocPool := 0, kfreePool := 0,
      kinit2Called := true }
  heap := { freelist := free, mem := fun _ _ => 1, trace := [] }
  locks := fun _ => false
  useLock := true
  ticks := 0
  user := fun _ => 0
  proc := ⟨0, 0⟩

def Kernel.view (s : Kernel L) : View L where
  prng := s.prng
  ticks := s.ticks
  user := s.user
  free := s.heap.freelist.pages
  mem := s.heap.mem
  trace := s.heap.trace

structure Sees (s : Kernel L) (v : View L) : Prop where
  unlocked : s.Unlocked
  view_eq : s.view = v

namespace View

variable (v : View L)

def setMem (mem : PageAddr L → Page) : View L := { v with mem := mem }
def writePage (p : PageAddr L) (page : Page) : View L :=
  { v with mem := Function.update v.mem p page }
def take (p : PageAddr L) (rest : List (PageAddr L)) : View L :=
  { v with free := rest, trace := v.trace ++ [.take p.val] }
def give (p : PageAddr L) (page : Page) : View L :=
  { v with
    free := p :: v.free
    mem := Function.update v.mem p page
    trace := v.trace ++ [.give p.val] }

def setUser (user : Word → Byte) : View L := { v with user := user }
def setPrng (prng : Prng) : View L := { v with prng := prng }
def setKey (key : Buffer 32) : View L := { v with prng := v.prng.setKey key }

end View

theorem hookFree_of_unlocked {s : Kernel L} (hs : s.Unlocked) (e : Entropy) (op : MemoryOp) :
    HookFree e s.locks op := fun _ => hs _

section Operations

variable {s : Kernel L} {v : View L}

theorem Sees.free_nodup (h : Sees s v) : v.free.Nodup := by
  rw [← h.view_eq]
  exact s.heap.freelist.nodup

variable {p : PageAddr L}

theorem kalloc_sees {rest : List (PageAddr L)} (h : Sees s v) (hp : v.free = p :: rest) :
    Returns kalloc s fun r s' => r = some p ∧ Sees s' (v.take p rest) := by
  obtain ⟨hu, rfl⟩ := h
  have hpages : s.heap.freelist.pages = p :: rest := hp
  refine ⟨_, _, kalloc_apply (hu _) (hookFree_of_unlocked hu _ _), ?_, hu, ?_⟩
  · rw [hpages]
    rfl
  · simp only [Kernel.view, View.take, Kernel.setEntropy, Kernel.setHeap, Heap.pop_pages,
      Heap.pop_mem, Heap.pop_trace hpages, hpages, List.tail_cons]

theorem zalloc_sees {rest : List (PageAddr L)} (msg : String) (h : Sees s v)
    (hp : v.free = p :: rest) :
    Returns (zalloc msg) s fun r s' =>
      r = p ∧ Sees s' ((v.take p rest).writePage p fun _ => 0) := by
  refine (kalloc_sees h hp).bind fun r s' hr => ?_
  obtain ⟨rfl, hu, hv⟩ := hr
  refine ⟨p, _, rfl, rfl, hu, ?_⟩
  rw [← hv]
  rfl

theorem kfree_sees (h : Sees s v) (hp : p ∉ v.free) :
    Returns (kfree p.val) s fun _ s' => ∃ page, Sees s' (v.give p page) := by
  obtain ⟨hu, rfl⟩ := h
  have hmem : p ∉ (s.heap.record (.give p.val)).freelist.pages := hp
  refine returns_of_eq (kfree_apply hp (hu _) (hookFree_of_unlocked hu _ _))
    ⟨(s.heap.record (.give p.val)).freed, hu, ?_⟩
  simp only [Kernel.view, View.give, Kernel.setEntropy, Kernel.setHeap, Heap.push_pages hmem,
    Heap.push_mem hmem, Heap.push_trace hmem]
  rfl

theorem Sees.write (h : Sees s v) (p : PageAddr L) (page : Page) :
    Sees (s.setHeap (s.heap.write p page)) (v.writePage p page) := by
  refine ⟨h.unlocked, ?_⟩
  rw [← h.view_eq]
  rfl

theorem Sees.prng (h : Sees s v) : s.prng = v.prng := by
  rw [← h.view_eq]
  rfl

theorem Sees.setPrng (h : Sees s v) (prng : Prng) : Sees (s.setPrng prng) (v.setPrng prng) := by
  refine ⟨h.unlocked, ?_⟩
  rw [← h.view_eq]
  rfl

theorem Sees.mem (h : Sees s v) : s.heap.mem = v.mem := by
  rw [← h.view_eq]
  rfl

theorem pageAt_apply (p : PageAddr L) : (pageAt p.val).run s = .ok p s := by
  rw [pageAt, dif_pos p.property]
  rfl

theorem loadPtr_sees (h : Sees s v) (p : PageAddr L) {k : ℕ} (hk : k < 1024) {w : Word}
    (hw : loadWord (v.mem p) k = w) : (loadPtr p k).run s = .ok w s := by
  rw [loadPtr, get_bind, if_pos (by simp only [PGSIZE]; omega), h.mem, hw, EStateM.run_pure]

theorem storePtr_sees (h : Sees s v) (p : PageAddr L) {k : ℕ} (hk : k < 1024) (w : Word) :
    Returns (storePtr p k w) s fun _ s' =>
      Sees s' (v.writePage p (storeWord (v.mem p) k w)) := by
  refine ⟨(), _, ?_, h.write p _⟩
  rw [storePtr, get_bind, if_pos (by simp only [PGSIZE]; omega), h.mem, EStateM.run_set]

theorem loadByte_sees (h : Sees s v) (p : PageAddr L) (i : Fin 4096) :
    (loadByte p.val i.val).run s = .ok (v.mem p i) s := by
  rw [loadByte, bind_ok (pageAt_apply p), get_bind, load?_of_lt _ i.isLt, h.mem]
  rfl

theorem storeByte_sees (h : Sees s v) (p : PageAddr L) (i : Fin 4096) (b : Byte) :
    Returns (storeByte p.val i.val b) s fun _ s' =>
      Sees s' (v.writePage p (Function.update (v.mem p) i b)) := by
  refine ⟨(), _, ?_, h.write p _⟩
  rw [storeByte, bind_ok (pageAt_apply p), get_bind, store?_of_lt _ _ i.isLt, h.mem]
  rfl

theorem storeBytes_apply {n : ℕ} (s : Kernel L) (p : PageAddr L) {off : ℕ} (hn : off + n ≤ 4096)
    (bytes : Buffer n) :
    (storeBytes p.val off bytes).run s =
      .ok () (s.setHeap (s.heap.write p (putBytes (s.heap.mem p) off bytes))) := by
  rw [storeBytes, bind_ok (pageAt_apply p), get_bind, if_pos hn, EStateM.run_set]

theorem storeBytes_sees {n : ℕ} (h : Sees s v) (p : PageAddr L) {off : ℕ} (hn : off + n ≤ 4096)
    (bytes : Buffer n) :
    Returns (storeBytes p.val off bytes) s fun _ s' =>
      Sees s' (v.writePage p (putBytes (v.mem p) off bytes)) := by
  refine ⟨(), _, ?_, h.write p _⟩
  rw [storeBytes_apply s p hn, h.mem]

end Operations
end Xv6Prng
