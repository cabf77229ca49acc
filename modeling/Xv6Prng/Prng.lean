import Xv6Prng.AesLayers
import Xv6Prng.Hash
import Xv6Prng.Library.CounterMode
import Xv6Prng.Pages

/-!
# The generator of `prng.c`

Counted loops carry the locals their iterations update. Pointers held in locals are
words, zero for null; a `char **` argument is the page it points to, or nothing for
null.
-/

namespace Xv6Prng

open ByteWords Halting Ownership

variable {L : Layout}

def Prng.initial : Prng where
  counter := Counter.zero
  key := fun _ => 0
  reseedCtr := 0
  lastReseedTicks := 0

def Prng.seeded : Prng := { Prng.initial with counter := ⟨1, 0, 0, 0⟩, reseedCtr := 1 }

def Counter.word (c : Counter) : ℕ → Word
  | 0 => c.c0
  | 1 => c.c1
  | 2 => c.c2
  | _ => c.c3

def Counter.toBlock (c : Counter) : Aes.Block :=
  Vector.ofFn fun i => byteOf (c.word (i.val / 4)) (i.val % 4)

/-- `E_K`: `aes_encrypt` under the round keys of the 32-byte key. -/
def encryptCounter (key : Buffer 32) (c : Counter) : Aes.Block :=
  Aes.aesEncrypt c.toBlock (Aes.keyExpansion (loadWord key) Aes.AES_256_KEY_SIZE)
    Aes.AES_256_KEY_SIZE

def Kernel.advance (s : Kernel L) : Kernel L :=
  s.setPrng (s.prng.setCounter s.prng.counter.incrctr)

/-- The page that block `b` goes to; a new one whenever `(i % 4096) == 0` for `i = 16 * b`. -/
def blockPage (memaddrArr : PageAddr L) (b : ℕ) (pgwrittento : Word) : KernelM L Word :=
  if 16 * b % 4096 = 0 then do
    let page ← zalloc "prnggenblocks: unable to allocate memory for block generation."
    storePtr memaddrArr (16 * b / 4096) page.val
    return page.val
  else pure pgwrittento

def genBlock (memaddrArr : PageAddr L) (b : ℕ) (pgwrittento : Word) : KernelM L Word := do
  let page ← blockPage memaddrArr b pgwrittento
  let s ← get
  let block := encryptCounter s.prng.key s.prng.counter
  storeBytes page (16 * b % 4096) block.get
  modify fun s => s.advance
  return page

def prnggenblocks (blocks : ℕ) (memaddrArr : Option (PageAddr L)) : KernelM L Unit := do
  let s ← get
  if s.prng.counter.c0 = 0 then panic "prnggenblocks: called with non-seeded generator."
  else match memaddrArr with
    | none => panic "prnggenblocks: called with null memory location for output."
    | some arr => do
      let _ ← forLoop (genBlock arr) 0 blocks 0
      return ()

def numblocks (size : ℕ) : ℕ := if size % 16 = 0 then size / 16 else size / 16 + 1

/-- The pages of iteration `j`: both are replaced at the start of each page. -/
def copyPages (output blocksPtrPage : PageAddr L) (j : ℕ) (pages : Word × Word) :
    KernelM L (Word × Word) :=
  if j % 4096 = 0 then do
    let pgwrittento ← zalloc "prngranddata: unable to allocate memory."
    storePtr output (j / 4096) pgwrittento.val
    let pgreadfrom ← loadPtr blocksPtrPage (j / 4096)
    return (pgwrittento.val, pgreadfrom)
  else pure pages

/-- `pgwrittento[j] = pgreadfrom[j]`: the index is the offset in the whole output. -/
def copyByte (output blocksPtrPage : PageAddr L) (j : ℕ) (pages : Word × Word) :
    KernelM L (Word × Word) := do
  let pages ← copyPages output blocksPtrPage j pages
  let b ← loadByte pages.2 j
  storeByte pages.1 j b
  return pages

def freeEntry (blocksPtrPage : PageAddr L) (i : ℕ) (_ : Unit) : KernelM L (ForInStep Unit) := do
  let entry ← loadPtr blocksPtrPage i
  if entry = 0 then return .done ()
  else do
    kfree entry
    return .yield ()

def installKey (src : Word) : KernelM L Unit := do
  let p ← pageAt src
  modify fun s => s.setPrng (s.prng.setKey fun i => byteAt (s.heap.mem p) i.val)

/-- A cleared page of pointers, filled by `prnggenblocks`; `prngranddata` does it twice. -/
def genPages (blocks : ℕ) : KernelM L (PageAddr L) := do
  let blocksPtrPage ← zalloc "prngranddata: unable to allocate memory."
  prnggenblocks blocks (some blocksPtrPage)
  return blocksPtrPage

def rekey : KernelM L Unit := do
  let blocksPtrPage ← genPages 2
  let first ← loadPtr blocksPtrPage 0
  installKey first
  let first ← loadPtr blocksPtrPage 0
  kfree first
  kfree blocksPtrPage.val

/-- The first half of `prngranddata`: generates the blocks, copies the bytes asked for to
output pages and frees the block pages. -/
def fillOutput (size : ℕ) (output : PageAddr L) : KernelM L Unit := do
  let blocksPtrPage ← genPages (numblocks size)
  let _ ← forLoop (copyByte output blocksPtrPage) 0 size (0, 0)
  let _ ← forBreak (freeEntry blocksPtrPage) 0 1024 ()
  kfree blocksPtrPage.val

def prngranddata (size : ℤ) (output : Option (PageAddr L)) : KernelM L Unit :=
  if size < 0 ∨ size > 2 ^ 20 then panic "prngranddata: requested negative or too much data."
  else match output with
    | none => panic "prnggranddata: provided null memory location for output."
    | some output => do
      fillOutput size.toNat output
      rekey

def copyOut (output : Word) (dataPtrPage : PageAddr L) (i : ℕ) (left : ℕ) :
    KernelM L (ForInStep ℕ) := do
  let dataPage ← loadPtr dataPtrPage i
  if left < 4096 then do
    copyToUser (output + BitVec.ofNat 32 (i * 4096)) dataPage left
    kfree dataPage
    return .done 0
  else do
    copyToUser (output + BitVec.ofNat 32 (i * 4096)) dataPage 4096
    kfree dataPage
    return .yield (left - 4096)

def generate (output : Word) (numbytes : ℤ) : KernelM L Unit := do
  let s ← get
  if s.prng.reseedCtr = 0 then
    panic "prngrand: attempted to get random data without seeding."
  else do
    let dataPtrPage ← zalloc "prngrand: unable to allocate memory."
    prngranddata numbytes (some dataPtrPage)
    let _ ← forBreak (copyOut output dataPtrPage) 0 1024 numbytes.toNat
    kfree dataPtrPage.val

def stampTicks : KernelM L Unit := do
  acquire .tickslock
  modify fun s => s.setPrng (s.prng.setLastReseedTicks s.ticks)
  release .tickslock

def prngreseed (seed : PageAddr L) (length : ℕ) : KernelM L Unit := do
  let s ← get
  let digest ← sha256 (s.heap.mem seed) length
  modify fun s => s.setPrng ((s.prng.setKey digest).setCounter s.prng.counter.incrctr)
  kfree seed.val
  stampTicks

/-- Hashes pool `i` into the seed and empties it, with its lock held. -/
def drainPool (seed : PageAddr L) (i : Fin 32) (offset : ℕ) : KernelM L ℕ := do
  acquire (.pool i)
  let s ← get
  let digest ← sha256 (s.entropy.pools i).entropy (s.entropy.pools i).hashLength
  storeBytes seed.val offset digest
  modify fun s => s.setEntropy
    { s.entropy with pools := Function.update s.entropy.pools i (s.entropy.pools i).drain }
  release (.pool i)
  return offset + 32

/-- The test `prng.reseed_ctr | (1 << i)` that selects a pool. -/
def poolSelected (reseedCtr : Word) (i : ℕ) : Prop := reseedCtr ||| (1#32 <<< i) ≠ 0

instance (reseedCtr : Word) (i : ℕ) : Decidable (poolSelected reseedCtr i) :=
  inferInstanceAs (Decidable (_ ≠ _))

def drainSelected (seed : PageAddr L) (i : ℕ) (offset : ℕ) : KernelM L ℕ := do
  let s ← get
  if poolSelected s.prng.reseedCtr i then drainPool seed (Fin.ofNat 32 i) offset
  else return offset

def reseed : KernelM L Unit := do
  let seedData ← zalloc "prngrand: unable to allocate memory."
  let offset ← forLoop (drainSelected seedData) 0 MAX_POOLS 0
  prngreseed seedData offset

/-- The reseed condition: more than 64 bytes in pool 0 and more than 10 ticks elapsed. -/
def reseedDue (pool0 : EntropyPool) (xticks lastReseedTicks : Word) : Prop :=
  pool0.size.toInt > MIN_SIZE_POOL ∧ xticks - lastReseedTicks > 10

instance (pool0 : EntropyPool) (xticks lastReseedTicks : Word) :
    Decidable (reseedDue pool0 xticks lastReseedTicks) :=
  inferInstanceAs (Decidable (_ ∧ _))

def maybeReseed (xticks : Word) : KernelM L Unit := do
  acquire (.pool 0)
  let s ← get
  if reseedDue (s.entropy.pools 0) xticks s.prng.lastReseedTicks then do
    modify fun s => s.setPrng (s.prng.setReseedCtr (s.prng.reseedCtr + 1))
    release (.pool 0)
    reseed
  else release (.pool 0)

def readTicks : KernelM L Word := do
  acquire .tickslock
  let s ← get
  release .tickslock
  return s.ticks

def prngrand (output : Word) (numbytes : ℤ) : KernelM L Unit := do
  let xticks ← readTicks
  maybeReseed xticks
  generate output numbytes

theorem numblocks_pos {n : ℕ} (hn : 0 < n) : 0 < numblocks n := by
  unfold numblocks
  split <;> omega

theorem le_numblocks (n : ℕ) : n ≤ 16 * numblocks n := by
  unfold numblocks
  split <;> omega

theorem numblocks_le {n : ℤ} (hn : n ≤ 2 ^ 20) : numblocks n.toNat ≤ 65536 := by
  unfold numblocks
  split <;> omega

theorem numblocks_le_256 {n : ℕ} (hn : n ≤ 4096) : numblocks n ≤ 256 := by
  unfold numblocks
  split <;> omega

theorem poolSelected_of_lt (reseedCtr : Word) {i : ℕ} (hi : i < 32) :
    poolSelected reseedCtr i := by
  intro h
  have hbit := congrArg (fun w : Word => w.getLsbD i) h
  simp [hi] at hbit

theorem Counter.toBlock_word (c : Counter) {k j : ℕ} (hk : k < 4) (hj : j < 4) :
    c.toBlock[4 * k + j] = byteOf (c.word k) j := by
  simp only [Counter.toBlock, Vector.getElem_ofFn]
  congr 2 <;> omega

theorem Counter.toBlock_injective : Function.Injective Counter.toBlock := by
  intro c d h
  have hbyte (k j : ℕ) (hk : k < 4) (hj : j < 4) :
      byteOf (c.word k) j = byteOf (d.word k) j := by
    rw [← Counter.toBlock_word c hk hj, ← Counter.toBlock_word d hk hj]
    simp only [h]
  have hword (k : ℕ) (hk : k < 4) : c.word k = d.word k :=
    word_ext (hbyte k 0 hk (by omega)) (hbyte k 1 hk (by omega)) (hbyte k 2 hk (by omega))
      (hbyte k 3 hk (by omega))
  obtain ⟨c0, c1, c2, c3⟩ := c
  obtain ⟨d0, d1, d2, d3⟩ := d
  rw [Counter.mk.injEq]
  exact ⟨hword 0 (by omega), hword 1 (by omega), hword 2 (by omega), hword 3 (by omega)⟩

theorem encryptCounter_injective (key : Buffer 32) :
    Function.Injective (encryptCounter key) :=
  (Aes.aesEncrypt_injective _ _).comp Counter.toBlock_injective

end Xv6Prng
