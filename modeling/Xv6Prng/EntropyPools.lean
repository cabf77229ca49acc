import Xv6Prng.Library.ByteWords

/-!
# The entropy pools of `entropyacc.c`

A pool is an array of `POOL_SIZE` bytes and an `int` that counts the bytes added since
the pool was last drained; the count is not clipped, and the array is written at the
count modulo its size. The remainder of C keeps the sign of a count that has
overflowed: the index is then negative and the byte lands before the array, in the count
itself (at -4 to -1) or in the pool before. Such a byte is dropped here, so a pool stands
for that of the source up to the first count that has overflowed.
-/

namespace Xv6Prng

open ByteWords

abbrev MAX_POOLS : ℕ := 32
abbrev MAX_SOURCES : ℤ := 255
abbrev MAX_EDATA_SIZE : ℤ := 32
abbrev MIN_SIZE_POOL : ℤ := 64
abbrev POOL_SIZE : ℕ := 4096
abbrev FREE_MEMORY_SIZE : ℤ := 4

instance : NeZero MAX_POOLS := ⟨by decide⟩

structure EntropyPool where
  size : Word
  entropy : Buffer 4096

namespace EntropyPool

def empty : EntropyPool := ⟨0, fun _ => 0⟩

/-- `size % POOL_SIZE` on `int`s. -/
def index (size : Word) : ℤ := size.toInt.tmod POOL_SIZE

def put (pool : EntropyPool) (i : ℤ) (b : Byte) : EntropyPool :=
  if h : 0 ≤ i ∧ i < 4096 then
    { pool with entropy := Function.update pool.entropy ⟨i.toNat, by omega⟩ b }
  else pool

/-- The critical section of `addRandomEvent`: source, length, then the event data. -/
def addEvent (pool : EntropyPool) (snum : Byte) (edata : ℕ → Byte) (dataLen : ℕ) : EntropyPool :=
  let p := { pool.put (index pool.size) snum with size := pool.size + 1 }
  let p := { p.put (index p.size) (BitVec.ofNat 8 dataLen) with size := p.size + 1 }
  let p := (List.range dataLen).foldl
    (fun q i => q.put (index (p.size + BitVec.ofNat 32 i)) (edata i)) p
  { p with size := p.size + BitVec.ofNat 32 dataLen }

/-- `(size > POOL_SIZE) ? POOL_SIZE : size`. -/
def hashLength (pool : EntropyPool) : ℤ :=
  if pool.size.toInt > POOL_SIZE then POOL_SIZE else pool.size.toInt

def drain (pool : EntropyPool) : EntropyPool where
  size := 0
  entropy := fun i => if (i.val : ℤ) < pool.hashLength then 0 else pool.entropy i

@[simp] theorem put_size (pool : EntropyPool) (i : ℤ) (b : Byte) :
    (pool.put i b).size = pool.size := by
  unfold put
  split <;> rfl

theorem foldl_put_size (l : List ℕ) (f : ℕ → ℤ) (edata : ℕ → Byte) (pool : EntropyPool) :
    (l.foldl (fun q i => q.put (f i) (edata i)) pool).size = pool.size := by
  induction l generalizing pool with
  | nil => rfl
  | cons i l ih => rw [List.foldl_cons, ih, put_size]

theorem addEvent_size (pool : EntropyPool) (snum : Byte) (edata : ℕ → Byte) (dataLen : ℕ) :
    (pool.addEvent snum edata dataLen).size = pool.size + 2 + BitVec.ofNat 32 dataLen := by
  simp only [addEvent, foldl_put_size]
  bv_omega

@[simp] theorem drain_size (pool : EntropyPool) : pool.drain.size = 0 := rfl

theorem drain_eq_self_iff (pool : EntropyPool) : pool.drain = pool ↔ pool.size = 0 := by
  constructor
  · intro h
    rw [← h]
    rfl
  · intro h
    obtain ⟨size, entropy⟩ := pool
    obtain rfl : size = 0 := h
    simp only [drain, hashLength, EntropyPool.mk.injEq, true_and]
    funext i
    rw [if_neg]
    simp

end EntropyPool

/-- The arguments of a call of `addRandomEvent`; `edata` is the memory at the pointer,
or nothing for a null pointer. -/
structure RandomEvent where
  snum : ℤ
  pnum : ℤ
  edata : Option (ℕ → Byte)
  dataLen : ℤ

namespace RandomEvent

def selected (e : RandomEvent) : Option (Fin 32) :=
  if e.snum < 0 ∨ e.snum > MAX_SOURCES then none
  else if h : e.pnum < 0 ∨ e.pnum ≥ MAX_POOLS then none
  else if e.edata.isNone then none
  else if e.dataLen < 0 ∨ e.dataLen > MAX_EDATA_SIZE then none
  else some ⟨e.pnum.toNat, by simp only [MAX_POOLS] at h; omega⟩

def applyTo (e : RandomEvent) (pool : EntropyPool) : EntropyPool :=
  pool.addEvent (BitVec.ofInt 8 e.snum) (e.edata.getD fun _ => 0) e.dataLen.toNat

def length (e : RandomEvent) : ℕ := e.dataLen.toNat + 2

theorem applyTo_size (e : RandomEvent) (pool : EntropyPool) :
    (e.applyTo pool).size = pool.size + BitVec.ofNat 32 e.length := by
  rw [applyTo, EntropyPool.addEvent_size, length]
  bv_omega

def addTo (e : RandomEvent) (pools : Fin 32 → EntropyPool) : Fin 32 → EntropyPool :=
  match e.selected with
  | none => pools
  | some i => Function.update pools i (e.applyTo (pools i))

end RandomEvent
end Xv6Prng
