import Xv6Prng.PoolStream
import Xv6Prng.HashInput
import Xv6Prng.Reseed
import Xv6Prng.SysRandom
import Xv6Prng.Library.Runs

/-!
# The indices into a pool

`addRandomEvent` writes byte number `m` of a pool at the remainder of `m` as an `int`, which is
negative once the count has passed 2 ^ 31. The readers are `printPoolsData`, which goes up to
the count, and the reseed, which hashes and clears at most `POOL_SIZE` bytes: the hash takes
whole words, and refuses a message that is too long or of negative length before it reads.
-/

namespace Xv6Prng

open ByteWords Runs

def InArray (x : ℤ) : Prop := 0 ≤ x ∧ x < POOL_SIZE

instance (x : ℤ) : Decidable (InArray x) := inferInstanceAs (Decidable (_ ∧ _))

namespace RandomEvent

def indices (e : RandomEvent) (pool : EntropyPool) : List ℤ :=
  EntropyPool.index pool.size :: EntropyPool.index (pool.size + 1) ::
    (List.range e.dataLen.toNat).map fun i =>
      EntropyPool.index (pool.size + 1 + 1 + BitVec.ofNat 32 i)

theorem foldl_put_entropy_congr {p q : EntropyPool} (h : p.entropy = q.entropy)
    (writes : List (ℤ × Byte)) :
    (writes.foldl (fun r x => r.put x.1 x.2) p).entropy =
      (writes.foldl (fun r x => r.put x.1 x.2) q).entropy := by
  induction writes generalizing p q with
  | nil => exact h
  | cons x writes ih => exact ih (EntropyPool.entropy_put_congr h x.1 x.2)

theorem entropy_applyTo (e : RandomEvent) (pool : EntropyPool) :
    (e.applyTo pool).entropy = (((e.indices pool).zip e.record.encode).foldl
      (fun q x => q.put x.1 x.2) pool).entropy := by
  have hdata : ((List.range e.dataLen.toNat).map fun i =>
        EntropyPool.index (pool.size + 1 + 1 + BitVec.ofNat 32 i)).zip e.record.data =
      (List.range e.dataLen.toNat).map fun i =>
        (EntropyPool.index (pool.size + 1 + 1 + BitVec.ofNat 32 i),
          e.edata.getD (fun _ => 0) i) := by
    rw [record, List.zip_map']
  rw [indices, EventRecord.encode, List.zip_cons_cons, List.zip_cons_cons, hdata, List.foldl_cons,
    List.foldl_cons]
  simp only [applyTo, EntropyPool.addEvent, record, List.length_map, List.length_range]
  rw [← List.foldl_map (f := fun i => (EntropyPool.index (pool.size + 1 + 1 + BitVec.ofNat 32 i),
    e.edata.getD (fun _ => 0) i)) (g := fun q x => EntropyPool.put q x.1 x.2)]
  apply foldl_put_entropy_congr
  apply EntropyPool.entropy_put_congr
  rfl

theorem indices_eq (e : RandomEvent) {pool : EntropyPool} {n : ℕ}
    (hsize : pool.size = BitVec.ofNat 32 n) :
    e.indices pool =
      (List.range e.length).map fun t => EntropyPool.index (BitVec.ofNat 32 (n + t)) := by
  have hadd (t : ℕ) :
      BitVec.ofNat 32 n + 1 + 1 + BitVec.ofNat 32 t = BitVec.ofNat 32 (n + (t + 2)) := by
    rw [Nat.add_comm t 2, ← Nat.add_assoc, BitVec.ofNat_add, BitVec.ofNat_add,
      BitVec.add_assoc (BitVec.ofNat 32 n) 1 1]
    rfl
  rw [indices, hsize, length, List.range_succ_eq_map, List.map_cons, List.range_succ_eq_map]
  simp only [List.map_cons, List.map_map, hadd]
  rw [Nat.add_zero, BitVec.ofNat_add n]
  rfl

variable {i : Fin 32} {e : RandomEvent}

theorem bytesInto_cons_of_pos (h : e.selected = some i)
    (calls : List RandomEvent) : bytesInto i (e :: calls) = e.length + bytesInto i calls := by
  rw [bytesInto, List.filter_cons_of_pos (by simpa using h), List.map_cons, List.sum_cons,
    bytesInto]

theorem bytesInto_cons_of_neg (h : e.selected ≠ some i)
    (calls : List RandomEvent) : bytesInto i (e :: calls) = bytesInto i calls := by
  rw [bytesInto, List.filter_cons_of_neg (by simpa using h), bytesInto]

theorem bytesInto_replicate (h : e.selected = some i) (k : ℕ) :
    bytesInto i (List.replicate k e) = k * e.length := by
  induction k with
  | zero => rw [Nat.zero_mul]; rfl
  | succ k ih => rw [List.replicate_succ, bytesInto_cons_of_pos h, ih, Nat.succ_mul, Nat.add_comm]

def WritesInArray (i : Fin 32) (pools : Fin 32 → EntropyPool) (e : RandomEvent) : Prop :=
  e.selected = some i → ∀ x ∈ e.indices (pools i), InArray x

theorem along_writesInArray_iff {pools : Fin 32 → EntropyPool} {n : ℕ}
    (hsize : (pools i).size = BitVec.ofNat 32 n) (calls : List RandomEvent) :
    Along (fun ps e => e.addTo ps) (WritesInArray i) pools calls ↔
      ∀ t < bytesInto i calls, InArray (EntropyPool.index (BitVec.ofNat 32 (n + t))) := by
  induction calls generalizing pools n with
  | nil =>
    refine ⟨fun _ t ht => absurd ht (Nat.not_lt_zero t), fun _ => trivial⟩
  | cons e calls ih =>
    rw [Along]
    by_cases h : e.selected = some i
    · have hnext : (e.addTo pools i).size = BitVec.ofNat 32 (n + e.length) := by
        rw [addTo_self h, applyTo_size, hsize, BitVec.ofNat_add]
      have hfirst : WritesInArray i pools e ↔
          ∀ t < e.length, InArray (EntropyPool.index (BitVec.ofNat 32 (n + t))) := by
        simp only [WritesInArray, h, forall_const, indices_eq e hsize, List.mem_map, List.mem_range,
          forall_exists_index, and_imp, forall_apply_eq_imp_iff₂]
      rw [hfirst, ih hnext, bytesInto_cons_of_pos h]
      constructor
      · rintro ⟨hone, hrest⟩ t ht
        by_cases hlt : t < e.length
        · exact hone t hlt
        · have hback := hrest (t - e.length) (by omega)
          rwa [Nat.add_assoc, Nat.add_sub_cancel' (Nat.not_lt.mp hlt)] at hback
      · intro hall
        refine ⟨fun t ht => hall t (by omega), fun t ht => ?_⟩
        rw [Nat.add_assoc]
        exact hall (e.length + t) (by omega)
    · have hnext : (e.addTo pools i).size = BitVec.ofNat 32 n := by
        rw [addTo_of_ne h, hsize]
      rw [ih hnext, bytesInto_cons_of_neg h]
      exact and_iff_right fun hsel => absurd hsel h

end RandomEvent

namespace EntropyPool

theorem inArray_index_iff {m : ℕ} (hm : m ≤ 2 ^ 31 + 1) :
    InArray (index (BitVec.ofNat 32 m)) ↔ m ≤ 2 ^ 31 := by
  rcases Nat.lt_or_ge m (2 ^ 31) with hlt | hge
  · rw [index_ofNat hlt, InArray]
    simp only [POOL_SIZE]
    omega
  · rcases Nat.eq_or_lt_of_le hge with heq | hgt
    · rw [← heq]
      decide
    · obtain rfl : m = 2 ^ 31 + 1 := by omega
      decide

end EntropyPool

open RandomEvent EntropyPool in
theorem forall_inArray_index_iff (T : ℕ) :
    (∀ t < T, InArray (index (BitVec.ofNat 32 (0 + t)))) ↔ T ≤ 2 ^ 31 + 1 := by
  simp only [Nat.zero_add]
  constructor
  · intro hall
    by_contra hgt
    have hbad := (inArray_index_iff le_rfl).mp (hall (2 ^ 31 + 1) (by omega))
    omega
  · intro hle t ht
    exact (inArray_index_iff (by omega)).mpr (by omega)

open RandomEvent in
/-- A pool that is never drained is written inside its array up to byte 2 ^ 31, and outside of
it with the next one. -/
theorem addRandomEvent_inArray_iff (i : Fin 32) (calls : List RandomEvent) :
    Along (fun ps e => e.addTo ps) (WritesInArray i) (fun _ => EntropyPool.empty) calls ↔
      bytesInto i calls ≤ 2 ^ 31 + 1 := by
  rw [along_writesInArray_iff (n := 0) rfl, forall_inArray_index_iff]

open RandomEvent in
theorem not_addRandomEvent_inArray :
    ¬ Along (fun ps e => e.addTo ps) (WritesInArray 0) (fun _ => EntropyPool.empty)
      (List.replicate 63161284 longEvent) := by
  rw [along_writesInArray_iff (n := 0) rfl, forall_inArray_index_iff,
    bytesInto_replicate (i := 0) rfl, show longEvent.length = 34 from rfl]
  omega

namespace EntropyPool

variable (pool : EntropyPool)

def printReads : List ℤ := (List.range pool.size.toInt.toNat).map Nat.cast

def hashReads : List ℤ :=
  if Hash.sizeOk pool.hashLength then
    (List.range (4 * Hash.messageWords pool.hashLength)).map Nat.cast
  else []

def clears : List ℤ :=
  if Hash.sizeOk pool.hashLength then (List.range pool.hashLength.toNat).map Nat.cast else []

end EntropyPool

namespace EntropyPool

variable {pool : EntropyPool}

theorem mem_printReads {x : ℤ} : x ∈ pool.printReads ↔ 0 ≤ x ∧ x < pool.size.toInt := by
  simp only [printReads, List.mem_map, List.mem_range]
  constructor
  · rintro ⟨j, hj, rfl⟩
    omega
  · rintro ⟨h0, hx⟩
    exact ⟨x.toNat, by omega, by omega⟩

theorem printReads_inArray_iff :
    (∀ x ∈ pool.printReads, InArray x) ↔ pool.size.toInt ≤ POOL_SIZE := by
  simp only [mem_printReads, InArray, POOL_SIZE]
  constructor
  · intro hall
    by_contra hgt
    have hbad := hall 4096 (by omega)
    omega
  · intro hle x hx
    omega

theorem dataSum_congr (h : ∀ x ∈ pool.printReads, InArray x) (behind behind' : ℕ → Byte) :
    pool.dataSum behind = pool.dataSum behind' := by
  rw [printReads_inArray_iff, POOL_SIZE] at h
  rw [dataSum, dataSum]
  refine List.foldl_ext _ _ _ fun sum j hj => ?_
  rw [List.mem_range] at hj
  have hload : load? pool.entropy j = some (pool.entropy ⟨j, by omega⟩) := dif_pos _
  rw [hload, Option.getD_some, Option.getD_some]

theorem hashed_congr_of_hashReads {data : Buffer 4096} (wide : Word → ℕ → Word) (page : Page)
    (hok : Hash.sizeOk pool.hashLength)
    (hdata : ∀ i : ℕ, (i : ℤ) ∈ pool.hashReads → byteAt pool.entropy i = byteAt data i) :
    Hash.hashed wide pool.entropy pool.hashLength page =
      Hash.hashed wide data pool.hashLength page := by
  refine Hash.hashed_congr hok ((Hash.preprocessed_eq_iff hok hok).mpr ⟨rfl, fun i _ => ?_⟩)
  rw [Hash.bufferByte, Hash.bufferByte]
  split_ifs with hin
  · refine Hash.shown_congr (fun j hj => hdata j ?_) hin
    rw [hashReads, if_pos hok]
    exact List.mem_map.mpr ⟨j, List.mem_range.mpr hj, rfl⟩
  · rfl

theorem entropy_drain (hok : Hash.sizeOk pool.hashLength) (i : Fin 4096) :
    pool.drain.entropy i = if (i.val : ℤ) ∈ pool.clears then 0 else pool.entropy i := by
  have hmem : (i.val : ℤ) ∈ pool.clears ↔ (i.val : ℤ) < pool.hashLength := by
    have hnonneg := ((Hash.sizeOk_iff _).mp hok).1
    rw [clears, if_pos hok]
    simp only [List.mem_map, List.mem_range, Nat.cast_inj, exists_eq_right]
    omega
  rw [drain]
  exact if_congr hmem.symm rfl rfl

theorem hashReads_inArray (pool : EntropyPool) : ∀ x ∈ pool.hashReads, InArray x := by
  intro x hx
  rw [hashReads] at hx
  split_ifs at hx with hok
  · obtain ⟨h0, hlt⟩ := (Hash.sizeOk_iff _).mp hok
    obtain ⟨j, hj, rfl⟩ := List.mem_map.mp hx
    rw [List.mem_range, Hash.messageWords] at hj
    simp only [InArray, POOL_SIZE]
    omega
  · exact absurd hx List.not_mem_nil

theorem clears_inArray (pool : EntropyPool) : ∀ x ∈ pool.clears, InArray x := by
  intro x hx
  rw [clears] at hx
  split_ifs at hx with hok
  · obtain ⟨h0, hlt⟩ := (Hash.sizeOk_iff _).mp hok
    obtain ⟨j, hj, rfl⟩ := List.mem_map.mp hx
    rw [List.mem_range] at hj
    simp only [InArray, POOL_SIZE]
    omega
  · exact absurd hx List.not_mem_nil

end EntropyPool

def ReadsInArray (pools : Fin 32 → EntropyPool) : Prop :=
  ∀ i, (∀ x ∈ (pools i).printReads, InArray x) ∧ (∀ x ∈ (pools i).hashReads, InArray x) ∧
    ∀ x ∈ (pools i).clears, InArray x

theorem readsInArray_iff (pools : Fin 32 → EntropyPool) :
    ReadsInArray pools ↔ ∀ i, (pools i).size.toInt ≤ POOL_SIZE :=
  forall_congr' fun _ => (and_iff_left ⟨EntropyPool.hashReads_inArray _,
    EntropyPool.clears_inArray _⟩).trans EntropyPool.printReads_inArray_iff

/-- After any calls of `addRandomEvent` the readers stay inside the pools exactly if no count
has passed the size of the array. -/
theorem poolsAfter_readsInArray_iff (calls : List RandomEvent) :
    ReadsInArray (poolsAfter calls) ↔
      ∀ i, (BitVec.ofNat 32 (bytesInto i calls)).toInt ≤ POOL_SIZE := by
  rw [readsInArray_iff]
  refine forall_congr' fun i => ?_
  rw [poolsAfter_size]

theorem not_poolsAfter_readsInArray :
    ¬ ReadsInArray (poolsAfter (List.replicate 121 longEvent)) := by
  rw [readsInArray_iff]
  intro hall
  have hsize := hall 0
  rw [poolsAfter_replicate] at hsize
  exact absurd hsize (by decide)

end Xv6Prng
