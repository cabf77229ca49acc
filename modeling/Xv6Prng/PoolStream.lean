import Xv6Prng.EntropyPools

/-!
# A pool holds the end of a stream of records

Each accepted event is encoded as its source, its length and its data. Since a pool was last
drained, its size counts the bytes of all encodings so far, and its array holds the last
`POOL_SIZE` of them, each at its place modulo `POOL_SIZE`. As long as nothing has been
overwritten the records can be read back.
-/

namespace Xv6Prng

open ByteWords Function

namespace EntropyPool

def push (pool : EntropyPool) (b : Byte) : EntropyPool :=
  { pool.put (index pool.size) b with size := pool.size + 1 }

structure Holds (stream : List Byte) (pool : EntropyPool) : Prop where
  size : pool.size = BitVec.ofNat 32 stream.length
  last : ∀ k < stream.length, stream.length ≤ k + POOL_SIZE →
    ∀ j : Fin 4096, j.val = k % POOL_SIZE → stream[k]? = some (pool.entropy j)

section Push

variable {pool : EntropyPool} {stream : List Byte} {b : Byte}

theorem index_ofNat {n : ℕ} (h : n < 2 ^ 31) :
    index (BitVec.ofNat 32 n) = (n % POOL_SIZE : ℕ) := by
  rw [index, toInt_ofNat h, Int.ofNat_tmod]

theorem entropy_put {k : ℕ} (hk : k < 4096) (j : Fin 4096) :
    (pool.put k b).entropy j = if j.val = k then b else pool.entropy j := by
  rw [put, dif_pos ⟨Int.natCast_nonneg k, by omega⟩]
  by_cases hj : j.val = k
  · obtain rfl : j = ⟨k, hk⟩ := Fin.ext hj
    rw [if_pos rfl]
    exact update_self ..
  · rw [if_neg hj]
    exact update_of_ne (fun heq => hj (congrArg Fin.val heq)) _ _

theorem Holds.push (h : Holds stream pool) (hlen : stream.length < 2 ^ 31) :
    Holds (stream ++ [b]) (pool.push b) := by
  have hentropy (j : Fin 4096) : (pool.push b).entropy j =
      if j.val = stream.length % POOL_SIZE then b else pool.entropy j := by
    have hk : stream.length % POOL_SIZE < 4096 := Nat.mod_lt _ (by decide)
    rw [← entropy_put hk, ← index_ofNat hlen, ← h.size]
    rfl
  refine ⟨?_, fun k hk hlast j hj => ?_⟩
  · rw [EntropyPool.push, h.size, List.length_append, List.length_singleton, BitVec.ofNat_add]
    rfl
  · rw [List.length_append, List.length_singleton] at hk hlast
    rw [hentropy]
    by_cases hend : k = stream.length
    · rw [hend] at hj ⊢
      rw [if_pos hj]
      exact List.getElem?_concat_length
    · -- a byte is overwritten only when it is the last but `POOL_SIZE`
      have hne : j.val ≠ stream.length % POOL_SIZE := by
        simp only [POOL_SIZE] at hj hlast ⊢
        omega
      rw [if_neg hne, List.getElem?_append_left (by omega)]
      exact h.last k (by omega) (by omega) j hj

theorem Holds.foldl_push (h : Holds stream pool) {bytes : List Byte}
    (hlen : (stream ++ bytes).length < 2 ^ 31) :
    Holds (stream ++ bytes) (bytes.foldl EntropyPool.push pool) := by
  induction bytes generalizing stream pool with
  | nil => rwa [List.append_nil]
  | cons b bytes ih =>
    rw [List.foldl_cons]
    have hsplit : stream ++ b :: bytes = stream ++ [b] ++ bytes := by simp
    rw [hsplit] at hlen ⊢
    refine ih (h.push ?_) hlen
    simp only [List.length_append, List.length_singleton] at hlen
    omega

end Push

theorem entropy_put_congr {p q : EntropyPool} (h : p.entropy = q.entropy) (i : ℤ) (b : Byte) :
    (p.put i b).entropy = (q.put i b).entropy := by
  rw [put, put]
  split
  · rw [h]
  · exact h

theorem foldl_put_eq_foldl_push (pool : EntropyPool) (edata : ℕ → Byte) (n : ℕ) :
    ((List.range n).map edata).foldl push pool =
      ⟨pool.size + BitVec.ofNat 32 n, ((List.range n).foldl
        (fun q i => q.put (index (pool.size + BitVec.ofNat 32 i)) (edata i)) pool).entropy⟩ := by
  induction n with
  | zero =>
    rw [List.range_zero, List.map_nil, List.foldl_nil, List.foldl_nil, BitVec.add_zero]
  | succ n ih =>
    rw [List.range_succ, List.map_append, List.foldl_append, ih, List.foldl_append,
      List.map_singleton, List.foldl_cons, List.foldl_nil, List.foldl_cons, List.foldl_nil, push]
    congr 1
    · rw [BitVec.ofNat_add, ← BitVec.add_assoc]
      rfl
    · apply entropy_put_congr
      rfl

theorem addEvent_eq_foldl_push (pool : EntropyPool) (snum : Byte) (edata : ℕ → Byte) (n : ℕ) :
    pool.addEvent snum edata n =
      (snum :: BitVec.ofNat 8 n :: (List.range n).map edata).foldl push pool := by
  rw [List.foldl_cons, List.foldl_cons, foldl_put_eq_foldl_push]
  simp only [addEvent, foldl_put_size]
  rfl

end EntropyPool

structure EventRecord where
  source : ℤ
  data : List Byte
  deriving DecidableEq

namespace EventRecord

def encode (r : EventRecord) : List Byte :=
  BitVec.ofInt 8 r.source :: BitVec.ofNat 8 r.data.length :: r.data

def decode : ℕ → List Byte → Option (List EventRecord)
  | _, [] => some []
  | fuel + 1, source :: length :: rest =>
    if rest.length < length.toNat then none
    else (decode fuel (rest.drop length.toNat)).map
      (⟨source.toNat, rest.take length.toNat⟩ :: ·)
  | _, _ => none

structure Fits (r : EventRecord) : Prop where
  source : 0 ≤ r.source ∧ r.source < 256
  length : r.data.length < 256

theorem decode_encode_append {r : EventRecord} (h : r.Fits) (fuel : ℕ) (rest : List Byte) :
    decode (fuel + 1) (r.encode ++ rest) = (decode fuel rest).map (r :: ·) := by
  have hsource : ((BitVec.ofInt 8 r.source).toNat : ℤ) = r.source := by
    have := h.source
    rw [BitVec.toNat_ofInt]
    omega
  have hlength : (BitVec.ofNat 8 r.data.length).toNat = r.data.length := by
    rw [BitVec.toNat_ofNat, Nat.mod_eq_of_lt h.length]
  rw [encode, List.cons_append, List.cons_append, decode, hlength, hsource, if_neg (by simp),
    List.drop_left, List.take_left]

theorem decode_encode {rs : List EventRecord} (h : ∀ r ∈ rs, r.Fits) {fuel : ℕ}
    (hfuel : rs.length ≤ fuel) : decode fuel (rs.flatMap encode) = some rs := by
  induction rs generalizing fuel with
  | nil => simp [decode]
  | cons r rs ih =>
    rw [List.length_cons] at hfuel
    obtain ⟨fuel, rfl⟩ : ∃ f, fuel = f + 1 := ⟨fuel - 1, by omega⟩
    rw [List.flatMap_cons, decode_encode_append (h r List.mem_cons_self),
      ih (fun q hq => h q (List.mem_cons_of_mem r hq)) (Nat.le_of_succ_le_succ hfuel),
      Option.map_some]

theorem length_le_flatMap_encode (rs : List EventRecord) :
    rs.length ≤ (rs.flatMap encode).length := by
  induction rs with
  | nil => simp
  | cons r rs ih =>
    rw [List.flatMap_cons, List.length_append, encode]
    simp only [List.length_cons]
    omega

end EventRecord

variable {i : Fin 32} {e : RandomEvent}

namespace RandomEvent

def record (e : RandomEvent) : EventRecord where
  source := e.snum
  data := (List.range e.dataLen.toNat).map (e.edata.getD fun _ => 0)

def addAll (calls : List RandomEvent) (pools : Fin 32 → EntropyPool) : Fin 32 → EntropyPool :=
  calls.foldl (fun ps e => e.addTo ps) pools

def recordsFor (i : Fin 32) (calls : List RandomEvent) : List EventRecord :=
  (calls.filter fun e => e.selected = some i).map record

theorem recordsFor_cons_of_pos (h : e.selected = some i) (calls : List RandomEvent) :
    recordsFor i (e :: calls) = e.record :: recordsFor i calls := by
  rw [recordsFor, List.filter_cons_of_pos (by simpa using h), List.map_cons, recordsFor]

theorem recordsFor_cons_of_neg (h : e.selected ≠ some i) (calls : List RandomEvent) :
    recordsFor i (e :: calls) = recordsFor i calls := by
  rw [recordsFor, List.filter_cons_of_neg (by simpa using h), recordsFor]

theorem selected_eq_some_iff :
    e.selected = some i ↔ (0 ≤ e.snum ∧ e.snum ≤ MAX_SOURCES) ∧ e.pnum = i.val ∧
      e.edata.isSome ∧ 0 ≤ e.dataLen ∧ e.dataLen ≤ MAX_EDATA_SIZE := by
  have hi : (i : ℤ) < MAX_POOLS := by exact_mod_cast i.isLt
  simp only [selected]
  split_ifs with hsource hpool hdata hlength
  · exact iff_of_false not_false fun h => by omega
  · exact iff_of_false not_false fun h => by omega
  · refine iff_of_false not_false fun h => ?_
    rw [Option.isNone_iff_eq_none.mp hdata] at h
    exact Bool.false_ne_true h.2.2.1
  · exact iff_of_false not_false fun h => by omega
  · have hsome : e.edata.isSome := Option.isSome_iff_ne_none.mpr (by simpa using hdata)
    simp only [Option.some.injEq, Fin.ext_iff, hsome, true_and]
    omega

theorem fits_record (h : e.selected = some i) : e.record.Fits := by
  obtain ⟨hsource, -, -, hlength⟩ := selected_eq_some_iff.mp h
  simp only [MAX_SOURCES, MAX_EDATA_SIZE] at hsource hlength
  refine ⟨⟨?_, ?_⟩, ?_⟩
  · change 0 ≤ e.snum
    omega
  · change e.snum < 256
    omega
  · rw [record, List.length_map, List.length_range]
    omega

theorem applyTo_eq_foldl_push (e : RandomEvent) (pool : EntropyPool) :
    e.applyTo pool = e.record.encode.foldl EntropyPool.push pool := by
  rw [applyTo, EntropyPool.addEvent_eq_foldl_push, EventRecord.encode]
  simp only [record, List.length_map, List.length_range]

theorem addTo_of_ne (h : e.selected ≠ some i) (pools : Fin 32 → EntropyPool) :
    e.addTo pools i = pools i := by
  rw [addTo]
  cases hj : e.selected with
  | none => rfl
  | some j =>
    have hne : i ≠ j := fun heq => h (heq ▸ hj)
    exact update_of_ne hne _ _

theorem addTo_self (h : e.selected = some i) (pools : Fin 32 → EntropyPool) :
    e.addTo pools i = e.applyTo (pools i) := by
  rw [addTo, h]
  exact update_self ..

theorem addAll_eq_foldl_push (calls : List RandomEvent) (pools : Fin 32 → EntropyPool)
    (i : Fin 32) : addAll calls pools i =
      ((recordsFor i calls).flatMap EventRecord.encode).foldl EntropyPool.push (pools i) := by
  induction calls generalizing pools with
  | nil => rfl
  | cons e calls ih =>
    rw [addAll, List.foldl_cons, ← addAll, ih]
    by_cases h : e.selected = some i
    · rw [addTo_self h, applyTo_eq_foldl_push, ← List.foldl_append, recordsFor_cons_of_pos h,
        List.flatMap_cons]
    · rw [addTo_of_ne h, recordsFor_cons_of_neg h]

end RandomEvent

namespace EntropyPool

theorem holds_nil {pool : EntropyPool} (h : pool.size = 0) : Holds [] pool :=
  ⟨h, fun k hk => absurd hk (Nat.not_lt_zero k)⟩

def contents (pool : EntropyPool) (n : ℕ) : List Byte :=
  ((List.finRange 4096).take n).map pool.entropy

theorem Holds.contents {stream : List Byte} {pool : EntropyPool} (h : Holds stream pool)
    (hlen : stream.length ≤ POOL_SIZE) : pool.contents stream.length = stream := by
  simp only [POOL_SIZE] at hlen
  apply List.ext_getElem?
  intro k
  rw [EntropyPool.contents, List.getElem?_map]
  by_cases hk : k < stream.length
  · have hk' : k < (List.finRange 4096).length := by
      rw [List.length_finRange]
      omega
    rw [List.getElem?_take_of_lt hk, List.getElem?_eq_getElem hk', List.getElem_finRange,
      Option.map_some]
    refine (h.last k hk (by simp only [POOL_SIZE]; omega) _ ?_).symm
    simp only [POOL_SIZE, Fin.val_cast]
    omega
  · have htake : ((List.finRange 4096).take stream.length).length ≤ k := by
      rw [List.length_take]
      omega
    rw [List.getElem?_eq_none htake, List.getElem?_eq_none (by omega), Option.map_none]

end EntropyPool

open RandomEvent EventRecord in
theorem entropyPool_stream (calls : List RandomEvent) (pools : Fin 32 → EntropyPool) (i : Fin 32)
    (hdrained : (pools i).size = 0)
    (hint : ((recordsFor i calls).flatMap encode).length < 2 ^ 31) :
    let stream := (recordsFor i calls).flatMap encode
    let pool := addAll calls pools i
    pool.size.toInt = stream.length ∧
    (∀ j : Fin 4096, j.val < min stream.length POOL_SIZE →
      ∃ k, k % POOL_SIZE = j.val ∧ stream[k]? = some (pool.entropy j) ∧
        ∀ l, l % POOL_SIZE = j.val → l < stream.length → l ≤ k) ∧
    (stream.length ≤ POOL_SIZE →
      decode stream.length (pool.contents stream.length) = some (recordsFor i calls)) ∧
    (∀ e : RandomEvent, e.selected ≠ some i →
      ∀ ps : Fin 32 → EntropyPool, e.addTo ps i = ps i) := by
  intro stream pool
  have hholds : EntropyPool.Holds stream pool := by
    have h : EntropyPool.Holds ([] ++ stream) (stream.foldl EntropyPool.push (pools i)) :=
      (EntropyPool.holds_nil hdrained).foldl_push hint
    rwa [List.nil_append, ← addAll_eq_foldl_push] at h
  refine ⟨?_, fun j hj => ?_, fun hlen => ?_, fun e he ps => addTo_of_ne he ps⟩
  · rw [hholds.size, toInt_ofNat hint]
  · simp only [POOL_SIZE] at hj ⊢
    -- the last place of the stream congruent to `j`
    refine ⟨j.val + 4096 * ((stream.length - 1 - j.val) / 4096), by omega, ?_, by omega⟩
    exact hholds.last _ (by omega) (by simp only [POOL_SIZE]; omega) j
      (by simp only [POOL_SIZE]; omega)
  · rw [hholds.contents hlen]
    refine decode_encode (fun r hr => ?_) (length_le_flatMap_encode _)
    obtain ⟨e, he, rfl⟩ := List.mem_map.mp hr
    exact fits_record (by simpa using (List.mem_filter.mp he).2)

def threeCalls : List RandomEvent :=
  [⟨1, 3, some fun _ => 0x41, 2⟩, ⟨1, 4, some fun _ => 0x42, 2⟩, ⟨1, 3, some fun _ => 0x43, 33⟩]

theorem entropyPool_stream_three :
    (RandomEvent.addAll threeCalls (fun _ => .empty) 3).size.toInt = 4 ∧
    EventRecord.decode 4 ((RandomEvent.addAll threeCalls (fun _ => .empty) 3).contents 4) =
      some [⟨1, [0x41, 0x41]⟩] := by
  have h := entropyPool_stream threeCalls (fun _ => .empty) 3 rfl (by decide)
  exact ⟨h.1, h.2.2.1 (by decide)⟩

end Xv6Prng
