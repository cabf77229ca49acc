import Xv6Prng.Kernel
import Xv6Prng.Library.Runs

/-!
# Where the events come from

Every collector has a counter that says which pool comes next, and advances it whether or not
`addRandomEvent` takes the event. The free memory has two collectors, one in `kalloc` and one in
`kfree`. What is done under the lock of a counter is one action; the ghost `appended` has the
source and the pool of every event that was taken.
-/

namespace Xv6Prng.Collectors

open ByteWords Runs Function

inductive Source
  | keyboardPress
  | keyboardTiming
  | interruptTiming
  | schedulingTiming
  | freeMemorySize
  | readData
  | readTiming
  | writeData
  | writeTiming
  deriving DecidableEq

def Source.code : Source → ℤ
  | .keyboardPress => 0
  | .keyboardTiming => 1
  | .interruptTiming => 2
  | .schedulingTiming => 3
  | .freeMemorySize => 4
  | .readData => 5
  | .readTiming => 6
  | .writeData => 7
  | .writeTiming => 8

/-- The static variables that count pools, by the function that has them. -/
inductive Rotor
  | keyboardPressPool
  | keyboardTimingPool
  | interruptTimingPool
  | scheduleTimingPool
  | kallocPool
  | kfreePool
  | readPool
  | writePool
  deriving DecidableEq

structure System where
  pools : Fin 32 → EntropyPool
  rotor : Rotor → Word
  memoryOperations : Word
  kinit2Called : Bool
  readOperations : Word
  writeOperations : Word
  ticks : Word
  appended : List (Source × Fin 32)

def System.boot : System where
  pools _ := .empty
  rotor _ := 0
  memoryOperations := 0
  kinit2Called := false
  readOperations := 0
  writeOperations := 0
  ticks := 0
  appended := []

/-- What runs a collector or changes what it sees. A buffer is the memory at its address, or
nothing for a null pointer. -/
inductive Action
  | consoleintr (c : Word)
  | trap (com1 : Bool)
  | schedule
  | memory (op : MemoryOp) (freePages : ℕ)
  | fileread (addr : Option (ℕ → Byte)) (n : Word)
  | filewrite (addr : Option (ℕ → Byte)) (n : Word)
  | kinit2
  | tick
  | drain (i : Fin 32)

def rotorOf : MemoryOp → Rotor
  | .kalloc => .kallocPool
  | .kfree => .kfreePool

namespace System

variable (s : System)

/-- The call `addRandomEvent(src, rotor % MAX_POOLS, edata, dataLen)`. -/
def event (r : Rotor) (src : Source) (edata : Option (ℕ → Byte)) (dataLen : ℤ) : RandomEvent :=
  ⟨src.code, ((s.rotor r).toNat % MAX_POOLS : ℕ), edata, dataLen⟩

def post (src : Source) (e : RandomEvent) : System :=
  match e.selected with
  | none => s
  | some i => { s with pools := e.addTo s.pools, appended := s.appended ++ [(src, i)] }

def rotate (r : Rotor) : System := { s with rotor := Function.update s.rotor r (s.rotor r + 1) }

def word (r : Rotor) (src : Source) (w : Word) : System :=
  s.post src (s.event r src (some (byteOf w)) 4)

/-- A turn of the loop in `consoleintr`, after the character has been dealt with. -/
def consoleintr (c : Word) : System :=
  (s.word .keyboardPressPool .keyboardPress c).rotate .keyboardPressPool

def timing (r : Rotor) (src : Source) : System := (s.word r src s.ticks).rotate r

def trap (com1 : Bool) : System :=
  let s := s.timing .interruptTimingPool .interruptTiming
  if com1 then s.timing .keyboardTimingPool .keyboardTiming else s

def schedule : System := s.timing .scheduleTimingPool .schedulingTiming

def entropy : Entropy where
  pools := s.pools
  memoryOperations := s.memoryOperations
  kallocPool := s.rotor .kallocPool
  kfreePool := s.rotor .kfreePool
  kinit2Called := s.kinit2Called

def countOp : System := { s with memoryOperations := s.memoryOperations + 1 }

def freeMemory (op : MemoryOp) (freePages : ℕ) : System :=
  { (s.word (rotorOf op) .freeMemorySize (BitVec.ofNat 32 (freePages * PGSIZE))).rotate
    (rotorOf op) with memoryOperations := 0 }

/-- The collector in `kalloc` and `kfree`, with the length of the free list. -/
def memory (op : MemoryOp) (freePages : ℕ) : System :=
  if s.countOp.entropy.hookDue then s.countOp.freeMemory op freePages else s.countOp

def transfer (r : Rotor) (data timing : Source) (addr : Option (ℕ → Byte)) (n : Word) : System :=
  ((s.post data (s.event r data addr n.toInt)).word r timing s.ticks).rotate r

def fileread (addr : Option (ℕ → Byte)) (n : Word) : System :=
  if s.readOperations + 1 > 10 then
    { s.transfer .readPool .readData .readTiming addr n with readOperations := 0 }
  else { s with readOperations := s.readOperations + 1 }

def filewrite (addr : Option (ℕ → Byte)) (n : Word) : System :=
  if s.writeOperations + 1 > 10 then
    { s.transfer .writePool .writeData .writeTiming addr n with writeOperations := 0 }
  else { s with writeOperations := s.writeOperations + 1 }

end System

def step (s : System) : Action → System
  | .consoleintr c => s.consoleintr c
  | .trap com1 => s.trap com1
  | .schedule => s.schedule
  | .memory op freePages => s.memory op freePages
  | .fileread addr n => s.fileread addr n
  | .filewrite addr n => s.filewrite addr n
  | .kinit2 => { s with kinit2Called := true }
  | .tick => { s with ticks := s.ticks + 1 }
  | .drain i => { s with pools := Function.update s.pools i (s.pools i).drain }

section Hook

variable (s : System)

theorem pools_post (src : Source) (e : RandomEvent) : (s.post src e).pools = e.addTo s.pools := by
  rw [System.post, RandomEvent.addTo]
  cases e.selected <;> rfl

theorem entropy_post (src : Source) (e : RandomEvent) :
    (s.post src e).entropy = { s.entropy with pools := e.addTo s.pools } := by
  rw [← pools_post s src, System.post]
  cases e.selected <;> rfl

theorem entropy_rotate (op : MemoryOp) : (s.rotate (rotorOf op)).entropy = s.entropy.rotate op := by
  cases op <;> simp [System.rotate, System.entropy, Entropy.rotate, rotorOf]

theorem event_freeMemory (op : MemoryOp) (freePages : ℕ) :
    s.event (rotorOf op) .freeMemorySize
        (some (byteOf (BitVec.ofNat 32 (freePages * PGSIZE)))) 4 =
      Entropy.freeMemoryEvent (s.entropy.hookPool op) freePages := by
  cases op <;> rfl

theorem entropy_memory (op : MemoryOp) (freePages : ℕ) :
    (s.memory op freePages).entropy = s.entropy.countOp.hook op freePages := by
  have hcount : s.countOp.entropy = s.entropy.countOp := rfl
  rw [System.memory, Entropy.hook, hcount]
  split_ifs with hdue
  · have hfree : (s.countOp.freeMemory op freePages).entropy =
        { ((s.countOp.word (rotorOf op) .freeMemorySize
          (BitVec.ofNat 32 (freePages * PGSIZE))).rotate (rotorOf op)).entropy with
          memoryOperations := 0 } := rfl
    rw [hfree, entropy_rotate, System.word, entropy_post, event_freeMemory, hcount,
      Entropy.rotate_pools]
    rfl
  · rfl

end Hook

def System.count (s : System) (src : Source) (i : Fin 32) : ℕ := s.appended.count (src, i)

def Spread (src : Source) (s : System) : Prop := ∀ i j, s.count src i ≤ s.count src j + 1

def rotors : Source → Finset Rotor
  | .keyboardPress => {.keyboardPressPool}
  | .keyboardTiming => {.keyboardTimingPool}
  | .interruptTiming => {.interruptTimingPool}
  | .schedulingTiming => {.scheduleTimingPool}
  | .freeMemorySize => {.kallocPool, .kfreePool}
  | .readData => {.readPool}
  | .readTiming => {.readPool}
  | .writeData => {.writePool}
  | .writeTiming => {.writePool}

def visits (i : Fin 32) (k : ℕ) : ℕ := k.count (· ≡ i.val [MOD 32])

theorem visits_eq (i : Fin 32) (k : ℕ) :
    visits i k = k / 32 + if i.val < k % 32 then 1 else 0 := by
  rw [visits, Nat.count_modEq_card _ (by decide), Nat.mod_eq_of_lt i.isLt]

theorem visits_succ (i : Fin 32) (k : ℕ) :
    visits i (k + 1) = visits i k + if i.val = k % 32 then 1 else 0 := by
  rw [visits, Nat.count_succ, visits]
  refine congrArg _ (if_congr ?_ rfl rfl)
  rw [Nat.ModEq, Nat.mod_eq_of_lt i.isLt, eq_comm]

structure Turns (src : Source) (k : Rotor → ℕ) (s : System) : Prop where
  rotor : ∀ r, s.rotor r = BitVec.ofNat 32 (k r)
  count : ∀ i, s.count src i = ∑ r ∈ rotors src, visits i (k r)

section Post

variable {s : System} {src src' : Source} {r : Rotor} {e : RandomEvent} {i : Fin 32}

theorem rotor_post : (s.post src e).rotor = s.rotor := by
  rw [System.post]
  split <;> rfl

theorem count_post_of_ne (hne : src' ≠ src) : (s.post src' e).count src i = s.count src i := by
  rw [System.post]
  split
  · rfl
  · simp [System.count, hne]

theorem count_post {j : Fin 32} (h : e.selected = some j) :
    (s.post src e).count src i = s.count src i + if i = j then 1 else 0 := by
  rw [System.post, h]
  dsimp only
  rw [System.count, System.count, List.count_append, List.count_singleton]
  simp only [beq_iff_eq, Prod.mk.injEq, true_and, @eq_comm _ j i]

theorem selected_event {k : ℕ} (hk : s.rotor r = BitVec.ofNat 32 k) {edata : Option (ℕ → Byte)}
    (hdata : edata.isSome) {n : ℤ} (hn : 0 ≤ n ∧ n ≤ MAX_EDATA_SIZE) :
    (s.event r src edata n).selected = some ⟨k % 32, Nat.mod_lt _ (by decide)⟩ := by
  have hmod : (s.rotor r).toNat % MAX_POOLS = k % 32 := by
    rw [hk, BitVec.toNat_ofNat]
    simp only [MAX_POOLS]
    omega
  have hsource : ¬ (src.code < 0 ∨ src.code > MAX_SOURCES) := by
    cases src <;> decide
  have hpool : ¬ (((k % 32 : ℕ) : ℤ) < 0 ∨ ((k % 32 : ℕ) : ℤ) ≥ MAX_POOLS) := by
    simp only [MAX_POOLS]
    omega
  have hnone : ¬ edata.isNone = true := by
    rw [Option.isNone_iff_eq_none]
    rintro rfl
    exact absurd hdata Bool.false_ne_true
  simp only [System.event, RandomEvent.selected, hmod, if_neg hsource, dif_neg hpool, if_neg hnone,
    if_neg (show ¬ (n < 0 ∨ n > MAX_EDATA_SIZE) by omega), Int.toNat_natCast]

theorem count_word (src src' : Source) (i : Fin 32) {k : ℕ} (hk : s.rotor r = BitVec.ofNat 32 k)
    (w : Word) : (s.word r src' w).count src i =
      s.count src i + if src = src' ∧ i.val = k % 32 then 1 else 0 := by
  rw [System.word]
  by_cases hsrc : src = src'
  · subst hsrc
    rw [count_post (selected_event hk rfl ⟨by decide, by decide⟩)]
    simp only [Fin.ext_iff, true_and]
  · rw [count_post_of_ne (Ne.symm hsrc), if_neg fun h => hsrc h.1, Nat.add_zero]

theorem rotor_word (w : Word) : (s.word r src w).rotor = s.rotor := rotor_post

theorem Turns.advance {k : Rotor → ℕ} {s' : System} (h : Turns src k s)
    (hrotor : s'.rotor = update s.rotor r (s.rotor r + 1))
    (hcount : ∀ i, s'.count src i =
      s.count src i + if r ∈ rotors src ∧ i.val = k r % 32 then 1 else 0) :
    Turns src (update k r (k r + 1)) s' := by
  refine ⟨fun r' => ?_, fun i => ?_⟩
  · rw [hrotor]
    by_cases hr : r' = r
    · subst hr
      rw [update_self, update_self, h.rotor, BitVec.ofNat_add]
      rfl
    · rw [update_of_ne hr, update_of_ne hr, h.rotor]
  · have hvisits : (fun r' => visits i (update k r (k r + 1) r')) =
        update (fun r' => visits i (k r')) r (visits i (k r + 1)) := by
      funext r'
      exact Function.apply_update (fun _ => visits i) k r (k r + 1) r'
    rw [hcount, h.count, hvisits]
    by_cases hr : r ∈ rotors src
    · rw [Finset.sum_update_of_mem hr, visits_succ, ← Finset.sum_erase_add _ _ hr,
        Finset.sdiff_singleton_eq_erase]
      simp only [hr, true_and]
      omega
    · rw [Finset.sum_update_of_notMem hr, if_neg fun hi => hr hi.1, Nat.add_zero]

end Post

section Step

variable {s : System} {src : Source} {k : Rotor → ℕ}

theorem Turns.word_rotate (h : Turns src k s) (r : Rotor) (src' : Source)
    (hsite : r ∈ rotors src ↔ src = src') (w : Word) :
    Turns src (update k r (k r + 1)) ((s.word r src' w).rotate r) := by
  refine h.advance (r := r) ?_ fun i => ?_
  · rw [System.rotate, rotor_word]
  · simp only [hsite]
    exact count_word src src' i (h.rotor r) w

theorem Turns.transfer (h : Turns src k s) {r : Rotor} {data timing : Source}
    (hne : data ≠ timing) (hsite : r ∈ rotors src ↔ src = data ∨ src = timing)
    {addr : Option (ℕ → Byte)} {n : Word}
    (hacc : src = data → addr.isSome ∧ 0 ≤ n.toInt ∧ n.toInt ≤ MAX_EDATA_SIZE) :
    Turns src (update k r (k r + 1)) (s.transfer r data timing addr n) := by
  have hk : (s.post data (s.event r data addr n.toInt)).rotor r = BitVec.ofNat 32 (k r) := by
    rw [rotor_post, h.rotor]
  refine h.advance (r := r) ?_ fun i => ?_
  · rw [System.transfer, System.rotate, rotor_word, rotor_post]
  · refine (count_word src timing i hk s.ticks).trans ?_
    simp only [hsite]
    by_cases hdata : src = data
    · obtain ⟨haddr, hn⟩ := hacc hdata
      subst hdata
      rw [count_post (selected_event (h.rotor r) haddr hn)]
      simp only [Fin.ext_iff, hne, false_and, if_false, true_or, true_and, Nat.add_zero]
    · rw [count_post_of_ne (Ne.symm hdata)]
      simp only [hdata, false_or]

theorem Turns.congr (h : Turns src k s) {s' : System} (hrotor : s'.rotor = s.rotor)
    (happ : s'.appended = s.appended) : Turns src k s' :=
  ⟨fun r => by rw [hrotor, h.rotor], fun i => by rw [System.count, happ, ← h.count]; rfl⟩

def Accepts (src : Source) (s : System) : Action → Prop
  | .fileread addr n => src = .readData → s.readOperations + 1 > 10 →
      addr.isSome ∧ 0 ≤ n.toInt ∧ n.toInt ≤ MAX_EDATA_SIZE
  | .filewrite addr n => src = .writeData → s.writeOperations + 1 > 10 →
      addr.isSome ∧ 0 ≤ n.toInt ∧ n.toInt ≤ MAX_EDATA_SIZE
  | _ => True

theorem Turns.step (h : Turns src k s) {a : Action} (ha : Accepts src s a) :
    ∃ k', Turns src k' (step s a) := by
  cases a with
  | consoleintr c =>
    exact ⟨_, h.word_rotate .keyboardPressPool .keyboardPress (by cases src <;> decide) c⟩
  | trap com1 =>
    have h₁ := h.word_rotate .interruptTimingPool .interruptTiming (by cases src <;> decide) s.ticks
    cases com1 with
    | false => exact ⟨_, h₁⟩
    | true =>
      exact ⟨_, h₁.word_rotate .keyboardTimingPool .keyboardTiming (by cases src <;> decide) _⟩
  | schedule =>
    exact ⟨_, h.word_rotate .scheduleTimingPool .schedulingTiming (by cases src <;> decide) s.ticks⟩
  | memory op freePages =>
    have h₁ : Turns src k s.countOp := h.congr rfl rfl
    show ∃ k', Turns src k' (s.memory op freePages)
    rw [System.memory]
    split_ifs
    · have h₂ := h₁.word_rotate (rotorOf op) .freeMemorySize
        (by cases op <;> cases src <;> decide) (BitVec.ofNat 32 (freePages * PGSIZE))
      exact ⟨_, h₂.congr rfl rfl⟩
    · exact ⟨k, h₁⟩
  | fileread addr n =>
    show ∃ k', Turns src k' (s.fileread addr n)
    rw [System.fileread]
    split_ifs with hdue
    · exact ⟨_, (h.transfer (by decide) (by cases src <;> decide)
        fun hsrc => ha hsrc hdue).congr rfl rfl⟩
    · exact ⟨k, h.congr rfl rfl⟩
  | filewrite addr n =>
    show ∃ k', Turns src k' (s.filewrite addr n)
    rw [System.filewrite]
    split_ifs with hdue
    · exact ⟨_, (h.transfer (by decide) (by cases src <;> decide)
        fun hsrc => ha hsrc hdue).congr rfl rfl⟩
    · exact ⟨k, h.congr rfl rfl⟩
  | kinit2 => exact ⟨k, h.congr rfl rfl⟩
  | tick => exact ⟨k, h.congr rfl rfl⟩
  | drain i => exact ⟨k, h.congr rfl rfl⟩

theorem turns_boot (src : Source) : Turns src (fun _ => 0) System.boot := by
  refine ⟨fun r => rfl, fun i => ?_⟩
  simp [System.count, System.boot, visits]

end Step

theorem visits_le (i j : Fin 32) (k : ℕ) : visits i k ≤ visits j k + 1 := by
  rw [visits_eq, visits_eq]
  split_ifs <;> omega

theorem visits_two_iff (a b : ℕ) :
    (∀ i j, visits i a + visits i b ≤ visits j a + visits j b + 1) ↔ 32 ∣ a ∨ 32 ∣ b := by
  simp only [visits_eq]
  constructor
  · intro h
    have hends := h 0 31
    simp only [Fin.val_zero, show (31 : Fin 32).val = 31 from rfl] at hends
    rw [if_neg (show ¬ 31 < a % 32 by omega), if_neg (show ¬ 31 < b % 32 by omega)] at hends
    split_ifs at hends <;> omega
  · rintro (h | h) i j <;> split_ifs <;> omega

section Runs

variable {src : Source} {k : Rotor → ℕ} {s : System}

theorem Turns.dvd_iff (h : Turns src k s) (r : Rotor) : 32 ∣ (s.rotor r).toNat ↔ 32 ∣ k r := by
  rw [h.rotor, BitVec.toNat_ofNat]
  omega

theorem Turns.spread_single (h : Turns src k s) {r : Rotor} (hr : rotors src = {r}) :
    Spread src s := by
  intro i j
  rw [h.count, h.count, hr, Finset.sum_singleton, Finset.sum_singleton]
  exact visits_le i j (k r)

theorem Turns.evenly_iff (h : Turns src k s) : Spread src s ↔
    (src = .freeMemorySize →
      32 ∣ (s.rotor .kallocPool).toNat ∨ 32 ∣ (s.rotor .kfreePool).toNat) := by
  by_cases hsrc : src = .freeMemorySize
  · subst hsrc
    have hpair : rotors .freeMemorySize = {.kallocPool, .kfreePool} := rfl
    have hne : Rotor.kallocPool ≠ .kfreePool := by decide
    rw [h.dvd_iff, h.dvd_iff, ← visits_two_iff]
    simp only [Spread, h.count, hpair, Finset.sum_pair hne, true_implies]
  · refine iff_of_true ?_ fun heq => absurd heq hsrc
    cases src with
    | freeMemorySize => exact absurd rfl hsrc
    | keyboardPress => exact h.spread_single rfl
    | keyboardTiming => exact h.spread_single rfl
    | interruptTiming => exact h.spread_single rfl
    | schedulingTiming => exact h.spread_single rfl
    | readData => exact h.spread_single rfl
    | readTiming => exact h.spread_single rfl
    | writeData => exact h.spread_single rfl
    | writeTiming => exact h.spread_single rfl

end Runs

theorem spread_iff {src : Source} {acts : List Action}
    (hacc : Along step (Accepts src) System.boot acts) :
    Spread src (run step System.boot acts) ↔ (src = .freeMemorySize →
      32 ∣ ((run step System.boot acts).rotor .kallocPool).toNat ∨
        32 ∣ ((run step System.boot acts).rotor .kfreePool).toNat) := by
  obtain ⟨k, hk⟩ := hacc.invariant (I := fun s => ∃ k, Turns src k s) ⟨_, turns_boot src⟩
    fun s a ⟨k, hk⟩ ha => hk.step ha
  exact hk.evenly_iff

def evenReads : List Action := List.replicate 22 (.fileread (some fun _ => 0) 4)

/-- Twenty-two reads of four bytes, of which the eleventh and the last are collected. -/
theorem spread_evenReads : Spread .readData (run step System.boot evenReads) ∧
    (run step System.boot evenReads).count .readData 0 = 1 ∧
    (run step System.boot evenReads).count .readData 1 = 1 := by
  have hacc : ∀ n s, Along step (Accepts .readData) s
      (List.replicate n (.fileread (some fun _ => 0) 4)) := by
    intro n
    induction n with
    | zero => exact fun _ => trivial
    | succ n ih => exact fun _ => ⟨fun _ _ => ⟨rfl, by decide, by decide⟩, ih _⟩
  exact ⟨(spread_iff (hacc 22 _)).mpr (by decide), by decide +kernel, by decide +kernel⟩

def unevenReads : List Action :=
  List.replicate 11 (.fileread (some fun _ => 0) 4) ++
    (List.replicate (31 * 11) (.fileread (some fun _ => 0) 64) ++
      List.replicate 11 (.fileread (some fun _ => 0) 4))

def twoCollectors : List Action :=
  .kinit2 :: (List.replicate 501 (.memory .kalloc 7) ++ List.replicate 501 (.memory .kfree 7))

theorem count_unevenReads : (run step System.boot unevenReads).count .readData 0 = 2 ∧
    (run step System.boot unevenReads).count .readData 1 = 0 := by
  decide +kernel

theorem count_twoCollectors : (run step System.boot twoCollectors).count .freeMemorySize 0 = 2 ∧
    (run step System.boot twoCollectors).count .freeMemorySize 1 = 0 := by
  decide +kernel

theorem not_spread : ¬ Spread .readData (run step System.boot unevenReads) ∧
    ¬ Spread .freeMemorySize (run step System.boot twoCollectors) := by
  constructor
  · intro h
    have hle := h 0 1
    rw [count_unevenReads.1, count_unevenReads.2] at hle
    omega
  · intro h
    have hle := h 0 1
    rw [count_twoCollectors.1, count_twoCollectors.2] at hle
    omega

end Xv6Prng.Collectors
