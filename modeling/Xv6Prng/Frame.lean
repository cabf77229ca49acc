import Xv6Prng.Prng

/-!
# What the kernel's operations cannot change

A property of the state is `Stable` when it does not depend on the locks, the entropy
record or the heap. The allocator, the accesses to pages and the hash keep every stable
property, on every path, those that stop the run included.
-/

namespace Xv6Prng

open ByteWords Halting Ownership

variable {L : Layout} {I : Kernel L → Prop} {E : Stop → Prop}

/-- The property `I` does not depend on what the operations below change, and `E` does not
exclude what they halt with. -/
structure Stable (I : Kernel L → Prop) (E : Stop → Prop) : Prop where
  locks : ∀ s l, I s → I (s.setLocks l)
  entropy : ∀ s e, I s → I (s.setEntropy e)
  heap : ∀ s h, I s → I (s.setHeap h)
  undefined : ∀ u, E (.undefined u)
  panic : ∀ msg, msg ≠ "prngranddata: requested negative or too much data." → E (.panic msg)

section Stable

variable (hI : Stable I E)
include hI

theorem acquire_keeps (l : Lock) : Keeps I E (acquire l) :=
  keeps_get.bind fun _ =>
    (keeps_throw (hI.panic _ (by decide))).ite (keeps_modify fun s hs => hI.locks s _ hs)

theorem release_keeps (l : Lock) : Keeps I E (release l) :=
  keeps_get.bind fun _ =>
    (keeps_modify fun s hs => hI.locks s _ hs).ite (keeps_throw (hI.panic _ (by decide)))

theorem addRandomEvent_keeps (e : RandomEvent) : Keeps I E (addRandomEvent e) := by
  unfold addRandomEvent
  split
  · exact keeps_pure _
  · exact (acquire_keeps hI _).bind fun _ =>
      (keeps_modify fun s hs => hI.entropy s _ hs).bind fun _ => release_keeps hI _

theorem entropyHook_keeps (op : MemoryOp) : Keeps I E (entropyHook op) := by
  refine keeps_get.bind fun s => ?_
  split
  · exact (addRandomEvent_keeps hI _).bind fun _ => keeps_modify fun s hs => hI.entropy s _ hs
  · exact keeps_pure _

theorem lockKmem_keeps : Keeps I E (lockKmem (L := L)) :=
  keeps_get.bind fun _ => (acquire_keeps hI _).ite (keeps_pure _)

theorem unlockKmem_keeps : Keeps I E (unlockKmem (L := L)) :=
  keeps_get.bind fun _ => (release_keeps hI _).ite (keeps_pure _)

theorem kalloc_keeps : Keeps I E (kalloc (L := L)) :=
  (keeps_modify fun s hs => hI.entropy s _ hs).bind fun _ =>
  (lockKmem_keeps hI).bind fun _ =>
  keeps_get.bind fun _ =>
  (keeps_modify fun s hs => hI.heap s _ hs).bind fun _ =>
  (entropyHook_keeps hI _).bind fun _ =>
  (unlockKmem_keeps hI).bind fun _ => keeps_pure _

theorem pushFree_keeps (p : PageAddr L) : Keeps I E (pushFree p) :=
  keeps_get_bind fun s hs => by
    split
    · exact keeps_throw (hI.undefined _) s hs
    · exact hI.heap s _ hs

theorem kfree_keeps (v : Word) : Keeps I E (kfree (L := L) v) := by
  refine (keeps_modify fun s hs => hI.heap _ _ (hI.entropy s _ hs)).bind fun _ => ?_
  split
  · exact (lockKmem_keeps hI).bind fun _ => (pushFree_keeps hI _).bind fun _ =>
      (entropyHook_keeps hI _).bind fun _ => unlockKmem_keeps hI
  · exact keeps_throw (hI.panic _ (by decide))

theorem zalloc_keeps {msg : String}
    (hmsg : msg ≠ "prngranddata: requested negative or too much data.") :
    Keeps I E (zalloc (L := L) msg) := by
  refine (kalloc_keeps hI).bind fun r => ?_
  cases r with
  | none => exact keeps_throw (hI.panic msg hmsg)
  | some p => exact (keeps_modify fun s hs => hI.heap s _ hs).bind fun _ => keeps_pure _

theorem pageAt_keeps (v : Word) : Keeps I E (pageAt (L := L) v) := by
  rw [pageAt]
  split
  · exact keeps_pure _
  · exact keeps_throw (hI.undefined _)

theorem loadByte_keeps (v : Word) (i : ℕ) : Keeps I E (loadByte (L := L) v i) := by
  refine (pageAt_keeps hI v).bind fun p => keeps_get.bind fun s => ?_
  split
  · exact keeps_pure _
  · exact keeps_throw (hI.undefined _)

theorem storeByte_keeps (v : Word) (i : ℕ) (b : Byte) : Keeps I E (storeByte (L := L) v i b) := by
  refine (pageAt_keeps hI v).bind fun p => keeps_get_bind fun s hs => ?_
  split
  · exact hI.heap s _ hs
  · exact keeps_throw (hI.undefined _) s hs

theorem loadPtr_keeps (p : PageAddr L) (k : ℕ) : Keeps I E (loadPtr p k) :=
  keeps_get.bind fun _ => (keeps_pure _).ite (keeps_throw (hI.undefined _))

theorem storePtr_keeps (p : PageAddr L) (k : ℕ) (w : Word) : Keeps I E (storePtr p k w) := by
  refine keeps_get_bind fun s hs => ?_
  split
  · exact hI.heap s _ hs
  · exact keeps_throw (hI.undefined _) s hs

theorem storeBytes_keeps {n : ℕ} (v : Word) (off : ℕ) (bytes : Buffer n) :
    Keeps I E (storeBytes (L := L) v off bytes) := by
  refine (pageAt_keeps hI v).bind fun p => keeps_get_bind fun s hs => ?_
  split
  · exact hI.heap s _ hs
  · exact keeps_throw (hI.undefined _) s hs

theorem sha256_keeps (data : Buffer 4096) (size : ℤ) : Keeps I E (sha256 (L := L) data size) := by
  refine (kalloc_keeps hI).bind fun r => ?_
  split
  · cases r with
    | none => exact keeps_throw (hI.undefined _)
    | some p =>
      exact (keeps_modify fun s hs => hI.heap s _ hs).bind fun _ =>
        keeps_get.bind fun _ => keeps_pure _
  · exact keeps_throw (hI.panic _ (by decide))

theorem blockPage_keeps (arr : PageAddr L) (b : ℕ) (pg : Word) : Keeps I E (blockPage arr b pg) :=
  ((zalloc_keeps hI (by decide)).bind fun _ => (storePtr_keeps hI _ _ _).bind fun _ => keeps_pure _).ite
    (keeps_pure _)

theorem copyByte_keeps (output arr : PageAddr L) (j : ℕ) (pages : Word × Word) :
    Keeps I E (copyByte output arr j pages) := by
  have hpages : Keeps I E (copyPages output arr j pages) :=
    ((zalloc_keeps hI (by decide)).bind fun _ => (storePtr_keeps hI _ _ _).bind fun _ =>
      (loadPtr_keeps hI _ _).bind fun _ => keeps_pure _).ite (keeps_pure _)
  exact hpages.bind fun _ => (loadByte_keeps hI _ _).bind fun _ =>
    (storeByte_keeps hI _ _ _).bind fun _ => keeps_pure _

theorem freeEntry_keeps (arr : PageAddr L) (i : ℕ) (u : Unit) : Keeps I E (freeEntry arr i u) :=
  (loadPtr_keeps hI _ _).bind fun _ =>
    (keeps_pure _).ite ((kfree_keeps hI _).bind fun _ => keeps_pure _)

end Stable

structure StablePrng (I : Kernel L → Prop) (E : Stop → Prop) : Prop extends Stable I E where
  prng : ∀ s p, I s → I (s.setPrng p)

section Generator

variable (hI : StablePrng I E)
include hI

theorem genBlock_keeps (arr : PageAddr L) (b : ℕ) (pg : Word) : Keeps I E (genBlock arr b pg) :=
  (blockPage_keeps hI.toStable arr b pg).bind fun _ =>
  keeps_get.bind fun _ =>
  (storeBytes_keeps hI.toStable _ _ _).bind fun _ =>
  (keeps_modify fun s hs => hI.prng s _ hs).bind fun _ => keeps_pure _

theorem prnggenblocks_keeps (n : ℕ) (arr : Option (PageAddr L)) :
    Keeps I E (prnggenblocks n arr) := by
  refine keeps_get.bind fun s => (keeps_throw (hI.panic _ (by decide))).ite ?_
  cases arr with
  | none => exact keeps_throw (hI.panic _ (by decide))
  | some arr => exact (Keeps.forLoop (genBlock_keeps hI arr) 0 n 0).bind fun _ => keeps_pure _

theorem genPages_keeps (n : ℕ) : Keeps I E (genPages (L := L) n) :=
  (zalloc_keeps hI.toStable (by decide)).bind fun _ =>
  (prnggenblocks_keeps hI n _).bind fun _ => keeps_pure _

theorem rekey_keeps : Keeps I E (rekey (L := L)) :=
  (genPages_keeps hI 2).bind fun _ =>
  (loadPtr_keeps hI.toStable _ _).bind fun _ =>
  ((pageAt_keeps hI.toStable _).bind fun _ =>
    keeps_modify fun s hs => hI.prng s _ hs).bind fun _ =>
  (loadPtr_keeps hI.toStable _ _).bind fun _ =>
  (kfree_keeps hI.toStable _).bind fun _ => kfree_keeps hI.toStable _

theorem fillOutput_keeps (size : ℕ) (output : PageAddr L) : Keeps I E (fillOutput size output) :=
  (genPages_keeps hI _).bind fun arr =>
  (Keeps.forLoop (copyByte_keeps hI.toStable output arr) 0 size (0, 0)).bind fun _ =>
  (Keeps.forBreak (freeEntry_keeps hI.toStable arr) 0 1024 ()).bind fun _ =>
  kfree_keeps hI.toStable _

theorem prngranddata_keeps {size : ℤ} (h0 : 0 ≤ size) (h1 : size ≤ 2 ^ 20)
    (output : Option (PageAddr L)) : Keeps I E (prngranddata size output) := by
  rw [prngranddata.eq_def, if_neg (by omega)]
  cases output with
  | none => exact keeps_throw (hI.panic _ (by decide))
  | some output => exact (fillOutput_keeps hI _ output).bind fun _ => rekey_keeps hI

theorem stampTicks_keeps : Keeps I E (stampTicks (L := L)) :=
  (acquire_keeps hI.toStable _).bind fun _ =>
  (keeps_modify fun s hs => hI.prng s _ hs).bind fun _ => release_keeps hI.toStable _

theorem prngreseed_keeps (seed : PageAddr L) (length : ℕ) : Keeps I E (prngreseed seed length) :=
  keeps_get.bind fun _ =>
  (sha256_keeps hI.toStable _ _).bind fun _ =>
  (keeps_modify fun s hs => hI.prng s _ hs).bind fun _ =>
  (kfree_keeps hI.toStable _).bind fun _ => stampTicks_keeps hI

theorem drainPool_keeps (seed : PageAddr L) (i : Fin 32) (offset : ℕ) :
    Keeps I E (drainPool seed i offset) :=
  (acquire_keeps hI.toStable _).bind fun _ =>
  keeps_get.bind fun _ =>
  (sha256_keeps hI.toStable _ _).bind fun _ =>
  (storeBytes_keeps hI.toStable _ _ _).bind fun _ =>
  (keeps_modify fun s hs => hI.entropy s _ hs).bind fun _ =>
  (release_keeps hI.toStable _).bind fun _ => keeps_pure _

theorem drainSelected_keeps (seed : PageAddr L) (i offset : ℕ) :
    Keeps I E (drainSelected seed i offset) :=
  keeps_get.bind fun _ => (drainPool_keeps hI seed _ offset).ite (keeps_pure _)

theorem reseed_keeps : Keeps I E (reseed (L := L)) :=
  (zalloc_keeps hI.toStable (by decide)).bind fun seed =>
  (Keeps.forLoop (drainSelected_keeps hI seed) 0 MAX_POOLS 0).bind fun _ =>
  prngreseed_keeps hI seed _

theorem maybeReseed_keeps (xticks : Word) : Keeps I E (maybeReseed (L := L) xticks) :=
  (acquire_keeps hI.toStable _).bind fun _ =>
  keeps_get.bind fun _ =>
  ((keeps_modify fun s hs => hI.prng s _ hs).bind fun _ =>
    (release_keeps hI.toStable _).bind fun _ => reseed_keeps hI).ite (release_keeps hI.toStable _)

theorem readTicks_keeps : Keeps I E (readTicks (L := L)) :=
  (acquire_keeps hI.toStable _).bind fun _ =>
  keeps_get.bind fun _ => (release_keeps hI.toStable _).bind fun _ => keeps_pure _

end Generator

end Xv6Prng
