import Xv6Prng.Aes
import Xv6Prng.Counter
import Xv6Prng.EntropyPools
import Xv6Prng.Library.Halting
import Xv6Prng.Library.Ownership

/-!
# Kernel state, spinlocks and the page allocator of `kalloc.c`

One CPU runs one system call. A page is an object of 4096 bytes: an index outside it,
a pointer that is no page, a page freed while it is free and a read of a local that was
never set are undefined in C and stop the run as such. A call of `panic` stops the run with
its message.

`kalloc` and `kfree` count memory operations and, every 500 of them, append the amount of
free memory to one of the entropy pools, under that pool's lock. The free list is a list
of pages without repetition; `trace` is a ghost record of the pages taken and given back.
-/

namespace Xv6Prng

open ByteWords Halting Ownership Function

abbrev PGSIZE : ℕ := 4096
abbrev KERNBASE : Word := 0x80000000
abbrev KERNLINK : Word := 0x80100000
abbrev PHYSTOP : Word := 0xE000000

/-- What the build decides: where the linker ended the kernel, `extern char end[]`, which is
linked at `KERNLINK`, and what the compiler makes of a left shift by 32 bits or more, which C
leaves undefined. -/
structure Layout where
  kend : Word
  kernlink_le : KERNLINK ≤ kend
  wide : Word → ℕ → Word

def IsPage (L : Layout) (v : Word) : Prop :=
  ¬ (v.toNat % PGSIZE ≠ 0 ∨ v < L.kend ∨ v - KERNBASE ≥ PHYSTOP)

instance (L : Layout) (v : Word) : Decidable (IsPage L v) := inferInstanceAs (Decidable (¬ _))

abbrev PageAddr (L : Layout) := { v : Word // IsPage L v }

theorem not_isPage_zero (L : Layout) : ¬ IsPage L 0 := by
  intro h
  have hk := L.kernlink_le
  apply h
  right; left
  bv_omega

abbrev Page := Buffer 4096

structure FreeList (L : Layout) where
  pages : List (PageAddr L)
  nodup : pages.Nodup

structure Heap (L : Layout) where
  freelist : FreeList L
  mem : PageAddr L → Page
  trace : List (Event Word)

/-- The pools with the counters of the allocator's entropy hook. -/
structure Entropy where
  pools : Fin 32 → EntropyPool
  memoryOperations : Word
  kallocPool : Word
  kfreePool : Word
  kinit2Called : Bool

structure Prng where
  counter : Counter
  key : Buffer 32
  reseedCtr : Word
  lastReseedTicks : Word

namespace Prng

@[simps] def setCounter (p : Prng) (c : Counter) : Prng := { p with counter := c }
@[simps] def setKey (p : Prng) (key : Buffer 32) : Prng := { p with key := key }
@[simps] def setReseedCtr (p : Prng) (ctr : Word) : Prng := { p with reseedCtr := ctr }
@[simps] def setLastReseedTicks (p : Prng) (t : Word) : Prng := { p with lastReseedTicks := t }

end Prng

structure Proc where
  sz : Word
  esp : Word

inductive Lock
  | tickslock
  | kmem
  | pool (i : Fin 32)
  deriving DecidableEq

structure Kernel (L : Layout) where
  prng : Prng
  entropy : Entropy
  heap : Heap L
  locks : Lock → Bool
  useLock : Bool
  ticks : Word
  user : Word → Byte
  proc : Proc

namespace Kernel

variable {L : Layout} (s : Kernel L)

@[simps] def setPrng (p : Prng) : Kernel L := { s with prng := p }
@[simps] def setEntropy (e : Entropy) : Kernel L := { s with entropy := e }
@[simps] def setHeap (h : Heap L) : Kernel L := { s with heap := h }
@[simps] def setLocks (l : Lock → Bool) : Kernel L := { s with locks := l }
@[simps] def setUser (m : Word → Byte) : Kernel L := { s with user := m }

end Kernel

inductive Undefined
  | outOfPage
  | badPointer
  | doubleFree
  | uninitialised
  deriving DecidableEq, Repr

inductive Stop
  | panic (msg : String)
  | undefined (what : Undefined)
  deriving DecidableEq, Repr

abbrev KernelM (L : Layout) := EStateM Stop (Kernel L)

variable {L : Layout}

def panic {α : Type} (msg : String) : KernelM L α := throw (.panic msg)

def Kernel.setLock (s : Kernel L) (l : Lock) (held : Bool) : Kernel L :=
  s.setLocks (Function.update s.locks l held)

def acquire (l : Lock) : KernelM L Unit := do
  if (← get).locks l then panic "acquire" else modify fun s => s.setLock l true

def release (l : Lock) : KernelM L Unit := do
  if (← get).locks l then modify fun s => s.setLock l false else panic "release"

variable {l : Lock} {s : Kernel L}

theorem acquire_apply (h : s.locks l = false) : (acquire l).run s = .ok () (s.setLock l true) := by
  simp [acquire, h]

theorem acquire_held (h : s.locks l = true) : (acquire l).run s = .error (.panic "acquire") s := by
  simp only [acquire, get_bind, h, if_true]
  rfl

theorem release_apply (h : s.locks l = true) : (release l).run s = .ok () (s.setLock l false) := by
  simp [release, h]

theorem setLock_self : (s.setLock l true).locks l = true := by
  simp [Kernel.setLock]

theorem setLock_of_ne {m : Lock} {b : Bool} (h : m ≠ l) : (s.setLock l b).locks m = s.locks m := by
  simp [Kernel.setLock, h]

theorem update_release {locks : Lock → Bool} (h : locks l = false) :
    update (update locks l true) l false = locks := by
  rw [update_idem, ← h, update_eq_self]

def addRandomEvent (e : RandomEvent) : KernelM L Unit :=
  match e.selected with
  | none => pure ()
  | some i => do
    acquire (.pool i)
    modify fun s => s.setEntropy { s.entropy with pools := e.addTo s.entropy.pools }
    release (.pool i)

theorem addRandomEvent_apply {e : RandomEvent}
    (h : ∀ i, e.selected = some i → s.locks (.pool i) = false) :
    (addRandomEvent e).run s =
      .ok () (s.setEntropy { s.entropy with pools := e.addTo s.entropy.pools }) := by
  cases hs : e.selected with
  | none =>
    simp only [addRandomEvent, RandomEvent.addTo, hs, EStateM.run_pure]
    rfl
  | some i =>
    have hl := h i hs
    simp only [addRandomEvent, hs]
    rw [bind_ok (acquire_apply hl), modify_bind, release_apply (by simp [Kernel.setLock])]
    simp [Kernel.setLock, Kernel.setLocks, Kernel.setEntropy, update_release hl]

theorem addRandomEvent_held {e : RandomEvent} {i : Fin 32}
    (hs : e.selected = some i) (h : s.locks (.pool i) = true) :
    (addRandomEvent e).run s = .error (.panic "acquire") s := by
  unfold addRandomEvent
  rw [hs]
  exact bind_error (acquire_held h)

inductive MemoryOp
  | kalloc
  | kfree

namespace Entropy

def countOp (e : Entropy) : Entropy := { e with memoryOperations := e.memoryOperations + 1 }
@[simp] theorem countOp_pools (e : Entropy) : e.countOp.pools = e.pools := rfl

def hookDue (e : Entropy) : Bool := e.kinit2Called && decide (e.memoryOperations.toInt > 500)

def rotation (e : Entropy) : MemoryOp → Word
  | .kalloc => e.kallocPool
  | .kfree => e.kfreePool

/-- The pool `free_memory_pool % MAX_POOLS` the next event of the hook goes to. -/
def hookPool (e : Entropy) (op : MemoryOp) : Fin 32 :=
  ⟨(e.rotation op).toNat % MAX_POOLS, Nat.mod_lt _ (by decide)⟩

def rotate (e : Entropy) : MemoryOp → Entropy
  | .kalloc => { e with kallocPool := e.kallocPool + 1 }
  | .kfree => { e with kfreePool := e.kfreePool + 1 }

/-- `addRandomEvent(FREE_MEMORY_SIZE, pool, (char *) &free_memory, sizeof(uint))`. -/
def freeMemoryEvent (pool : Fin 32) (freePages : ℕ) : RandomEvent where
  snum := FREE_MEMORY_SIZE
  pnum := pool.val
  edata := some (byteOf (BitVec.ofNat 32 (freePages * PGSIZE)))
  dataLen := 4

theorem freeMemoryEvent_selected (pool : Fin 32) (freePages : ℕ) :
    (freeMemoryEvent pool freePages).selected = some pool := by
  have h := pool.isLt
  simp [RandomEvent.selected, freeMemoryEvent, FREE_MEMORY_SIZE, MAX_SOURCES, MAX_POOLS,
    MAX_EDATA_SIZE]

def hook (e : Entropy) (op : MemoryOp) (freePages : ℕ) : Entropy :=
  if e.hookDue then
    { e.rotate op with
      pools := (freeMemoryEvent (e.hookPool op) freePages).addTo e.pools
      memoryOperations := 0 }
  else e

theorem rotate_pools (e : Entropy) (op : MemoryOp) (pools : Fin 32 → EntropyPool) :
    ({ e with pools := pools } : Entropy).rotate op = { e.rotate op with pools := pools } := by
  cases op <;> rfl

end Entropy

def entropyHook (op : MemoryOp) : KernelM L Unit := do
  let s ← get
  if s.entropy.hookDue then
    let freePages := s.heap.freelist.pages.length
    addRandomEvent (Entropy.freeMemoryEvent (s.entropy.hookPool op) freePages)
    modify fun s => s.setEntropy { s.entropy.rotate op with memoryOperations := 0 }

/-- The pool lock that the hook of the next operation needs, if it is due, is free. -/
def HookFree (e : Entropy) (locks : Lock → Bool) (op : MemoryOp) : Prop :=
  e.hookDue = true → locks (.pool (e.hookPool op)) = false

theorem entropyHook_apply {s : Kernel L} {op : MemoryOp} (h : HookFree s.entropy s.locks op) :
    (entropyHook op).run s =
      .ok () (s.setEntropy (s.entropy.hook op s.heap.freelist.pages.length)) := by
  simp only [entropyHook, get_bind, Entropy.hook]
  split_ifs with hd
  · rw [bind_ok (addRandomEvent_apply fun i hi => ?_), EStateM.run_modify]
    · simp [Entropy.rotate_pools, Kernel.setEntropy]
    · rw [Entropy.freeMemoryEvent_selected] at hi
      obtain rfl := Option.some.inj hi
      exact h hd
  · rfl

theorem entropyHook_held {s : Kernel L} {op : MemoryOp} (hd : s.entropy.hookDue = true)
    (h : s.locks (.pool (s.entropy.hookPool op)) = true) :
    (entropyHook op).run s = .error (.panic "acquire") s := by
  simp only [entropyHook, get_bind, hd, if_true]
  exact bind_error (addRandomEvent_held (Entropy.freeMemoryEvent_selected _ _) h)

namespace Heap

def pop (h : Heap L) : Heap L :=
  match hp : h.freelist.pages with
  | [] => h
  | p :: rest =>
    { h with
      freelist := ⟨rest, (List.nodup_cons.mp (hp ▸ h.freelist.nodup)).2⟩
      trace := h.trace ++ [.take p.val] }

/-- A freed page: `memset(v, 1, PGSIZE)`, then `r->next = kmem.freelist`. -/
def freed (h : Heap L) : Page :=
  storeWord (fun _ => 1) 0 (match h.freelist.pages.head? with
    | some q => q.val
    | none => 0)

def write (h : Heap L) (p : PageAddr L) (page : Page) : Heap L :=
  { h with mem := Function.update h.mem p page }

def record (h : Heap L) (e : Event Word) : Heap L := { h with trace := h.trace ++ [e] }

/-- Only ever used on a page that is not free. -/
def push (h : Heap L) (p : PageAddr L) : Heap L :=
  if hp : p ∈ h.freelist.pages then h
  else
    { h with
      freelist := ⟨p :: h.freelist.pages, List.nodup_cons.mpr ⟨hp, h.freelist.nodup⟩⟩
      mem := Function.update h.mem p h.freed }

theorem pop_pages (h : Heap L) : h.pop.freelist.pages = h.freelist.pages.tail := by
  unfold pop
  split <;> simp_all

theorem pop_mem (h : Heap L) : h.pop.mem = h.mem := by
  unfold pop
  split <;> rfl

theorem pop_trace {h : Heap L} {p : PageAddr L} {rest : List (PageAddr L)}
    (hp : h.freelist.pages = p :: rest) : h.pop.trace = h.trace ++ [.take p.val] := by
  unfold pop
  split
  · simp_all
  · simp_all

section Push

variable {h : Heap L} {p : PageAddr L} (hp : p ∉ h.freelist.pages)
include hp

theorem push_pages : (h.push p).freelist.pages = p :: h.freelist.pages := by
  simp [push, hp]

theorem push_mem : (h.push p).mem = update h.mem p h.freed := by
  simp [push, hp]

theorem push_trace : (h.push p).trace = h.trace := by
  simp [push, hp]

end Push

end Heap

def lockKmem : KernelM L Unit := do
  if (← get).useLock then acquire .kmem

def unlockKmem : KernelM L Unit := do
  if (← get).useLock then release .kmem

def kalloc : KernelM L (Option (PageAddr L)) := do
  modify fun s => s.setEntropy s.entropy.countOp
  lockKmem
  let r := (← get).heap.freelist.pages.head?
  modify fun s => s.setHeap s.heap.pop
  entropyHook .kalloc
  unlockKmem
  return r

/-- `r->next = kmem.freelist; kmem.freelist = r`, with the junk fill before it. -/
def pushFree (p : PageAddr L) : KernelM L Unit := do
  let s ← get
  if p ∈ s.heap.freelist.pages then throw (.undefined .doubleFree)
  else set (s.setHeap (s.heap.push p))

/-- The operation is counted before the pointer is checked. -/
def kfree (v : Word) : KernelM L Unit := do
  modify fun s => (s.setEntropy s.entropy.countOp).setHeap (s.heap.record (.give v))
  if hv : IsPage L v then
    lockKmem
    pushFree ⟨v, hv⟩
    entropyHook .kfree
    unlockKmem
  else panic "kfree"

def withKmem (useLock : Bool) (locks : Lock → Bool) : Lock → Bool :=
  if useLock then Function.update locks .kmem true else locks

theorem withKmem_pool (useLock : Bool) (locks : Lock → Bool) (i : Fin 32) :
    withKmem useLock locks (.pool i) = locks (.pool i) := by
  cases useLock <;> simp [withKmem]

variable {s : Kernel L}

theorem lockKmem_apply (h : s.locks .kmem = false) :
    lockKmem.run s = .ok () (s.setLocks (withKmem s.useLock s.locks)) := by
  unfold lockKmem
  rw [get_bind]
  cases hu : s.useLock with
  | true =>
    rw [if_pos rfl, acquire_apply h]
    rfl
  | false => rfl

theorem unlockKmem_apply (locks : Lock → Bool) (h : locks .kmem = false)
    (hl : s.locks = withKmem s.useLock locks) :
    unlockKmem.run s = .ok () (s.setLocks locks) := by
  unfold unlockKmem
  rw [get_bind]
  cases hu : s.useLock with
  | true =>
    have hlocks : s.locks = update locks .kmem true := by simpa [withKmem, hu] using hl
    rw [if_pos rfl, release_apply (by simp [hlocks]), Kernel.setLock, hlocks, update_release h]
  | false =>
    have hlocks : s.locks = locks := by simpa [withKmem, hu] using hl
    rw [← hlocks]
    rfl

theorem kalloc_apply (hk : s.locks .kmem = false)
    (hf : HookFree s.entropy.countOp s.locks .kalloc) :
    kalloc.run s = .ok s.heap.freelist.pages.head?
      ((s.setHeap s.heap.pop).setEntropy
        (s.entropy.countOp.hook .kalloc s.heap.pop.freelist.pages.length)) := by
  unfold kalloc
  rw [modify_bind, bind_ok (lockKmem_apply (s := s.setEntropy s.entropy.countOp) hk), get_bind,
    modify_bind, bind_ok (entropyHook_apply ?_),
    bind_ok (unlockKmem_apply s.locks hk ?_), EStateM.run_pure]
  · rfl
  · rfl
  · intro hd
    rw [← hf hd]
    exact withKmem_pool _ _ _

theorem kalloc_held (hk : s.locks .kmem = false) (hd : s.entropy.countOp.hookDue = true)
    (h : s.locks (.pool (s.entropy.countOp.hookPool .kalloc)) = true) :
    Stops (kalloc (L := L)) s fun e _ => e = .panic "acquire" := by
  unfold kalloc Stops
  rw [modify_bind, bind_ok (lockKmem_apply (s := s.setEntropy s.entropy.countOp) hk), get_bind,
    modify_bind, bind_error (entropyHook_held hd ?_)]
  · exact ⟨_, _, rfl, rfl⟩
  · rw [← h]
    exact withKmem_pool _ _ _

theorem pushFree_apply {p : PageAddr L} (hp : p ∉ s.heap.freelist.pages) :
    (pushFree p).run s = .ok () (s.setHeap (s.heap.push p)) := by
  unfold pushFree
  rw [get_bind, if_neg hp, EStateM.run_set]

theorem kfree_apply {p : PageAddr L} (hp : p ∉ s.heap.freelist.pages)
    (hk : s.locks .kmem = false) (hf : HookFree s.entropy.countOp s.locks .kfree) :
    (kfree p.val).run s = .ok ()
      ((s.setHeap ((s.heap.record (.give p.val)).push p)).setEntropy
        (s.entropy.countOp.hook .kfree (s.heap.freelist.pages.length + 1))) := by
  have hlen : ((s.heap.record (.give p.val)).push p).freelist.pages.length =
      s.heap.freelist.pages.length + 1 := by
    rw [Heap.push_pages (h := s.heap.record (.give p.val)) hp]
    rfl
  unfold kfree
  rw [modify_bind, dif_pos p.property, bind_ok (lockKmem_apply
    (s := (s.setEntropy s.entropy.countOp).setHeap (s.heap.record (.give p.val))) hk),
    bind_ok (pushFree_apply ?_), bind_ok (entropyHook_apply ?_), unlockKmem_apply s.locks hk ?_]
  · rw [← hlen]
    rfl
  · rfl
  · intro hd
    rw [← hf hd]
    exact withKmem_pool _ _ _
  · exact hp

theorem kfree_panic {v : Word} (hv : ¬ IsPage L v) :
    Stops (kfree (L := L) v) s fun e _ => e = .panic "kfree" := by
  unfold kfree Stops
  rw [modify_bind, dif_neg hv]
  exact ⟨_, _, rfl, rfl⟩

end Xv6Prng
