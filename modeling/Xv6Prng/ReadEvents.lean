import Xv6Prng.SysRead
import Xv6Prng.PoolStream

/-!
# The data that `read` gives to the pools

Every eleventh `fileread` records a `READ_DATA` event. The event is made from the caller's
buffer, and it is made before anything is read: its bytes are what the buffer held. They are
bytes of the read only when there are none.
-/

namespace Xv6Prng.SysRead

open Halting FileSys OpenFiles Function

def Collects (s : System) : Prop := s.readOperations + 1 > 10

instance (s : System) : Decidable (Collects s) := inferInstanceAs (Decidable (_ > _))

def readEvents (addr n : Word) (s : System) : List RandomEvent :=
  if Collects s then [dataEvent addr n s, timingEvent s] else []

theorem pools_countRead (addr n : Word) (s : System) :
    (countRead addr n s).pools = RandomEvent.addAll (readEvents addr n s) s.pools := by
  by_cases h : s.readOperations + 1 > 10
  · rw [countRead, readEvents, if_pos h, if_pos (show Collects s from h)]
    rfl
  · rw [countRead, readEvents, if_neg h, if_neg (show ¬ Collects s from h)]
    rfl

def dataRecords (addr n : Word) (s : System) (i : Fin 32) : List EventRecord :=
  (RandomEvent.recordsFor i (readEvents addr n s)).filter fun r => r.source = READ_DATA

def poolOf (s : System) : Fin 32 := ⟨s.readPool.toNat % 32, Nat.mod_lt _ (by decide)⟩

def Accepted (addr n : Word) : Prop := addr ≠ 0 ∧ 0 ≤ n.toInt ∧ n.toInt ≤ 32

instance (addr n : Word) : Decidable (Accepted addr n) := inferInstanceAs (Decidable (_ ∧ _))

theorem bufferAt_isSome (user : Word → Byte) (addr : Word) :
    (bufferAt user addr).isSome = true ↔ addr ≠ 0 := by
  rw [bufferAt]
  split_ifs with h
  · exact iff_of_false Bool.false_ne_true (not_not_intro h)
  · exact iff_of_true rfl h

variable {s : System} {addr n : Word}

theorem selected_dataEvent {i : Fin 32} :
    (dataEvent addr n s).selected = some i ↔ Accepted addr n ∧ poolOf s = i := by
  have hsource : 0 ≤ READ_DATA ∧ READ_DATA ≤ MAX_SOURCES := by decide
  have hpool : ((s.readPool.toNat % MAX_POOLS : ℕ) : ℤ) = i.val ↔ poolOf s = i := by
    rw [Fin.ext_iff, Int.ofNat_inj]
    rfl
  rw [RandomEvent.selected_eq_some_iff]
  simp only [dataEvent, hsource, hpool, bufferAt_isSome, true_and, Accepted, MAX_EDATA_SIZE]
  tauto

theorem dataRecords_eq (addr n : Word) (s : System) (i : Fin 32) :
    dataRecords addr n s i =
      if Collects s ∧ Accepted addr n ∧ poolOf s = i then [(dataEvent addr n s).record]
      else [] := by
  have htiming : (timingEvent s).record.source ≠ READ_DATA := by
    change READ_TIMING ≠ READ_DATA
    decide
  -- the timing event is filtered out, whichever pool it is for
  have hrest : (RandomEvent.recordsFor i [timingEvent s]).filter
      (fun r => r.source = READ_DATA) = [] := by
    rw [List.filter_eq_nil_iff]
    intro r hr
    obtain ⟨e, he, rfl⟩ := List.mem_map.mp hr
    rw [List.mem_singleton.mp (List.mem_of_mem_filter he)]
    simpa using htiming
  rw [dataRecords, readEvents]
  by_cases hdue : Collects s
  · rw [if_pos hdue]
    by_cases hsel : (dataEvent addr n s).selected = some i
    · rw [RandomEvent.recordsFor_cons_of_pos hsel, List.filter_cons_of_pos (by rfl), hrest,
        if_pos ⟨hdue, selected_dataEvent.mp hsel⟩]
    · rw [RandomEvent.recordsFor_cons_of_neg hsel, hrest,
        if_neg fun h => hsel (selected_dataEvent.mpr h.2)]
  · rw [if_neg hdue, if_neg fun h => hdue h.1]
    rfl

structure SameButBuffer (addr n : Word) (s t : System) : Prop where
  rest : { s with user := t.user } = t
  outside : ∀ a, (∀ k : ℕ, (k : ℤ) < n.toInt → a ≠ addr + BitVec.ofNat 32 k) → t.user a = s.user a

/-- Each byte of a data record is a byte that the call delivers to the caller at that place, and
what is recorded does not depend on the buffer. -/
structure RecordsDelivered (env : Arrivals) (fd : ℕ) (f : File) (addr n : Word) (s : System) :
    Prop where
  delivered : ∀ i, ∀ r ∈ dataRecords addr n s i, ∀ k < r.data.length,
    Returns (fileread env fd f addr n) s fun ret t =>
      (k : ℤ) < ret.toInt ∧ r.data[k]? = some (t.user (addr + BitVec.ofNat 32 k))
  independent : ∀ i t, SameButBuffer addr n s t → dataRecords addr n t i = dataRecords addr n s i

def RecordsBytes (addr n : Word) (s : System) : Prop :=
  Collects s ∧ Accepted addr n ∧ n.toInt ≠ 0

theorem SameButBuffer.dataRecords_eq_of_not {t : System} (h : SameButBuffer addr n s t)
    (hnot : ¬ RecordsBytes addr n s) (i : Fin 32) :
    dataRecords addr n t i = dataRecords addr n s i := by
  obtain ⟨hrest, -⟩ := h
  rw [← hrest, dataRecords_eq, dataRecords_eq]
  split_ifs with hleft hright hright
  · obtain ⟨hdue, hacc, _⟩ := hright
    have hn : n.toInt = 0 := by
      by_contra hne
      exact hnot ⟨hdue, hacc, hne⟩
    simp only [RandomEvent.record, dataEvent, hn, Int.toNat_zero, List.range_zero, List.map_nil]
  · exact absurd hleft hright
  · exact absurd hright hleft
  · rfl

theorem data_eq_nil_of_not (hnot : ¬ RecordsBytes addr n s) {i : Fin 32} {r : EventRecord}
    (hr : r ∈ dataRecords addr n s i) : r.data = [] := by
  rw [dataRecords_eq] at hr
  split_ifs at hr with h
  · obtain ⟨hdue, hacc, _⟩ := h
    have hn : n.toInt = 0 := by
      by_contra hne
      exact hnot ⟨hdue, hacc, hne⟩
    rw [List.mem_singleton.mp hr]
    simp only [RandomEvent.record, dataEvent, hn, Int.toNat_zero, List.range_zero, List.map_nil]
  · cases hr

theorem dataRecords_head (h : RecordsBytes addr n s) :
    ((dataRecords addr n s (poolOf s)).flatMap EventRecord.data).head? = some (s.user addr) := by
  obtain ⟨hdue, hacc, hne⟩ := h
  obtain ⟨m, hm⟩ : ∃ m, n.toInt.toNat = m + 1 := ⟨n.toInt.toNat - 1, by have := hacc.2; omega⟩
  rw [dataRecords_eq, if_pos ⟨hdue, hacc, rfl⟩, List.flatMap_singleton, RandomEvent.record,
    dataEvent, bufferAt, if_neg hacc.1]
  simp [hm, List.range_succ_eq_map]

def otherByte (addr : Word) (s : System) : System :=
  { s with user := Function.update s.user addr (s.user addr + 1) }

theorem sameButBuffer_otherByte (hn : 0 < n.toInt) (s : System) :
    SameButBuffer addr n s (otherByte addr s)  where
  rest := rfl
  outside a ha := by
    have hne : a ≠ addr := by simpa using ha 0 hn
    exact update_of_ne hne _ _

theorem not_independent (h : RecordsBytes addr n s) :
    dataRecords addr n (otherByte addr s) (poolOf s) ≠ dataRecords addr n s (poolOf s) := by
  intro heq
  have hs := dataRecords_head h
  have hother : ((dataRecords addr n (otherByte addr s) (poolOf s)).flatMap
      EventRecord.data).head? = some (update s.user addr (s.user addr + 1) addr) :=
    dataRecords_head (s := otherByte addr s) h
  rw [heq, hs, update_self] at hother
  have hbyte := Option.some.inj hother
  bv_omega

theorem recordsDelivered_iff (env : Arrivals) (fd : ℕ) (f : File) (addr n : Word) (s : System) :
    (∀ t, SameButBuffer addr n s t → RecordsDelivered env fd f addr n t) ↔
      ¬ (Collects s ∧ addr ≠ 0 ∧ 1 ≤ n.toInt ∧ n.toInt ≤ 32) := by
  have hiff : (Collects s ∧ addr ≠ 0 ∧ 1 ≤ n.toInt ∧ n.toInt ≤ 32) ↔ RecordsBytes addr n s := by
    simp only [RecordsBytes, Accepted]
    constructor
    · rintro ⟨hdue, haddr, hlow, hhigh⟩
      exact ⟨hdue, ⟨haddr, by omega, hhigh⟩, by omega⟩
    · rintro ⟨hdue, ⟨haddr, hlow, hhigh⟩, hne⟩
      exact ⟨hdue, haddr, by omega, hhigh⟩
  rw [hiff]
  constructor
  · intro h hbytes
    have hn : 0 < n.toInt := by
      have := hbytes.2.1.2
      have := hbytes.2.2
      omega
    have hself : SameButBuffer addr n s s := ⟨rfl, fun _ _ => rfl⟩
    exact not_independent hbytes
      ((h s hself).independent _ _ (sameButBuffer_otherByte hn s))
  · intro hnot t ht
    have hnot' : ¬ RecordsBytes addr n t := by
      rw [← ht.rest]
      exact hnot
    refine ⟨fun i r hr k hk => ?_, fun i u hu => hu.dataRecords_eq_of_not hnot' i⟩
    rw [data_eq_nil_of_not hnot' hr] at hk
    cases hk

def staleBuffer : System :=
  { rootOpen 0 0x100 4 with
    readOperations := 10
    user a := if 0x100 ≤ a then 0xAA else (rootOpen 0 0x100 4).user a }

/-- A read that is refused because the file is not open for reading records four bytes of the
buffer. -/
theorem not_recordsDelivered :
    dataRecords 0x100 4 staleBuffer 0 = [⟨5, [0xAA, 0xAA, 0xAA, 0xAA]⟩] ∧
    Returns (fileread noArrivals 0 ⟨.inode, false, 1, 0⟩ 0x100 4) staleBuffer
      (fun ret _ => ret = -1) ∧
    ¬ RecordsDelivered noArrivals 0 ⟨.inode, false, 1, 0⟩ 0x100 4 staleBuffer := by
  refine ⟨by decide +kernel, returns_of_eq rfl rfl, fun h => ?_⟩
  have hbytes : RecordsBytes 0x100 4 staleBuffer := by
    refine ⟨by decide, ⟨by decide, by decide, by decide⟩, by decide⟩
  exact not_independent hbytes (h.independent _ _ (sameButBuffer_otherByte (by decide) _))

end Xv6Prng.SysRead
