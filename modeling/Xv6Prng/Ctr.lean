import Xv6Prng.AesLayers
import Xv6Prng.Library.Halting

/-!
# Counter mode of `ctr.c`

`ctr` works on the memory of the calling process, in which its four arrays are given by
their addresses, and on a local buffer of one block. The message, the sequence and the
buffer are all indexed with the running index of the loop, so a message of more than one
block leaves the buffer: an index outside it is undefined in C and stops the run. The
addresses read and written are kept as a ghost record.
-/

namespace Xv6Prng

open ByteWords Halting Aes Function

structure Memory where
  byte : Word → Byte
  touched : List Word

inductive Fault
  | outOfBuffer
  deriving DecidableEq

abbrev CtrM := EStateM Fault Memory

def offset (p : Word) (i : ℕ) : Word := p + BitVec.ofNat 32 i

def bytesAt (mem : Word → Byte) (p : Word) (n : ℕ) : Buffer n := fun i => mem (offset p i.val)

def readBytes (p : Word) (n : ℕ) : CtrM (Buffer n) := do
  modify fun m => { m with touched := (List.range n).map (offset p) ++ m.touched }
  return bytesAt (← get).byte p n

def readByte (a : Word) : CtrM Byte := do
  modify fun m => { m with touched := a :: m.touched }
  return (← get).byte a

def writeByte (a : Word) (b : Byte) : CtrM Unit :=
  modify fun m => { byte := Function.update m.byte a b, touched := a :: m.touched }

def expandKey {n : ℕ} (key : Buffer n) (keySize : ℕ) : RoundKeys :=
  keyExpansion (loadWord key) keySize

def encryptBlock (roundKeys : RoundKeys) (keySize : ℕ) (block : Buffer 16) : Block :=
  aesEncrypt (Vector.ofFn block) roundKeys keySize

/-- `aes_encrypt(&sequence[index], &encrypted_sequence[index], roundKeys, keySize)`. -/
def encryptSequence (sequence : Word) (roundKeys : RoundKeys) (keySize index : ℕ)
    (encryptedSequence : Buffer 16) : CtrM (Buffer 16) := do
  let block ← readBytes (offset sequence index) BLOCK_LENGTH
  if index + BLOCK_LENGTH ≤ 16 then
    let cipher := encryptBlock roundKeys keySize block
    return fun i => if index ≤ i.val then cipher.getD (i.val - index) 0 else encryptedSequence i
  else throw .outOfBuffer

def refillSequence (sequence : Word) (roundKeys : RoundKeys) (keySize index : ℕ)
    (encryptedSequence : Buffer 16) : CtrM (Buffer 16) :=
  if index % BLOCK_LENGTH = 0 then
    encryptSequence sequence roundKeys keySize index encryptedSequence
  else pure encryptedSequence

def xorByte (input output : Word) (index : ℕ) (encryptedSequence : Buffer 16) : CtrM Unit :=
  match load? encryptedSequence index with
  | none => throw .outOfBuffer
  | some k => do
    let b ← readByte (offset input index)
    writeByte (offset output index) (k ^^^ b)

def ctrByte (input output sequence : Word) (roundKeys : RoundKeys) (keySize index : ℕ)
    (encryptedSequence : Buffer 16) : CtrM (Buffer 16) := do
  let encryptedSequence ← refillSequence sequence roundKeys keySize index encryptedSequence
  xorByte input output index encryptedSequence
  return encryptedSequence

def ctr (stack : Buffer 16) (input output sequence : Word) (size : ℕ) (key : Word)
    (keySize : ℕ) : CtrM Unit := do
  let key ← readBytes key (4 * keySize)
  let roundKeys := expandKey key keySize
  let _ ← forLoop (ctrByte input output sequence roundKeys keySize) 0 size stack
  return ()

def ctrEncrypt (stack : Buffer 16) (message ciphertext : Word) (size : ℕ) (sequence key : Word)
    (keySize : ℕ) : CtrM Unit :=
  ctr stack message ciphertext sequence size key keySize

def ctrDecrypt (stack : Buffer 16) (ciphertext message : Word) (size : ℕ) (sequence key : Word)
    (keySize : ℕ) : CtrM Unit :=
  ctr stack ciphertext message sequence size key keySize

def keystreamByte (mem : Word → Byte) (sequence key : Word) (keySize i : ℕ) : Byte :=
  (encryptBlock (expandKey (bytesAt mem key (4 * keySize)) keySize) keySize
    (bytesAt mem (offset sequence (16 * (i / 16))) 16)).getD (i % 16) 0

def Apart (p : Word) (n : ℕ) (q : Word) (m : ℕ) : Prop :=
  ∀ i < n, ∀ j < m, offset p i ≠ offset q j

def roundUp (size : ℕ) : ℕ := (size + 15) / 16 * 16

structure Arrays (input output sequence : Word) (size : ℕ) (key : Word) (keySize : ℕ) : Prop where
  size_lt : size < 2 ^ 32
  input : input = output ∨ Apart input size output size
  sequence : Apart sequence (roundUp size) output size
  key : Apart key (4 * keySize) output size

def Encrypted (input output sequence : Word) (size : ℕ) (key : Word) (keySize : ℕ)
    (m m' : Memory) : Prop :=
  (∀ i < size, m'.byte (offset output i) =
    m.byte (offset input i) ^^^ keystreamByte m.byte sequence key keySize i) ∧
  ∀ x, (∀ i < size, x ≠ offset output i) → m'.byte x = m.byte x

/-- A call is correct: it completes inside its buffer with the output encrypted, and a
decryption of that output, to any array, gives the input back. -/
def CtrCorrect (stack : Buffer 16) (input output sequence : Word) (size : ℕ) (key : Word)
    (keySize : ℕ) (m : Memory) : Prop :=
  Returns (ctrEncrypt stack input output size sequence key keySize) m
    (fun _ m' => Encrypted input output sequence size key keySize m m') ∧
  ∀ message, Arrays output message sequence size key keySize →
    Returns (do
        ctrEncrypt stack input output size sequence key keySize
        ctrDecrypt stack output message size sequence key keySize) m
      fun _ m' => ∀ i < size, m'.byte (offset message i) = m.byte (offset input i)

theorem offset_inj {p : Word} {i j : ℕ} (hi : i < 2 ^ 32) (hj : j < 2 ^ 32)
    (h : offset p i = offset p j) : i = j := by
  have hnat := congrArg BitVec.toNat (add_left_cancel h)
  rw [BitVec.toNat_ofNat, BitVec.toNat_ofNat] at hnat
  omega

theorem offset_offset (p : Word) (i j : ℕ) : offset (offset p i) j = offset p (i + j) := by
  rw [offset, offset, offset, BitVec.ofNat_add, add_assoc]

section Byte

variable (input output sequence : Word) (roundKeys : RoundKeys) (keySize : ℕ)

def firstBlock (mem : Word → Byte) : Buffer 16 := fun i =>
  (encryptBlock roundKeys keySize (bytesAt mem (offset sequence 0) 16)).getD i.val 0

theorem refillSequence_apply {index : ℕ} (hi : index < 16) (buf : Buffer 16) (m : Memory) :
    Returns (refillSequence sequence roundKeys keySize index buf) m fun buf' m' =>
      buf' = (if index = 0 then firstBlock sequence roundKeys keySize m.byte else buf) ∧
      m'.byte = m.byte := by
  rw [refillSequence]
  by_cases h0 : index = 0
  · subst h0
    rw [if_pos rfl, if_pos (Nat.zero_mod _)]
    refine Returns.bind_of_eq (a := bytesAt m.byte (offset sequence 0) BLOCK_LENGTH) rfl ?_
    rw [if_pos (by decide)]
    refine returns_pure ⟨funext fun i => ?_, rfl⟩
    rw [if_pos (Nat.zero_le _), Nat.sub_zero]
    rfl
  · have hmod : index % BLOCK_LENGTH ≠ 0 := by rw [BLOCK_LENGTH]; omega
    rw [if_neg hmod]
    exact returns_pure ⟨(if_neg h0).symm, rfl⟩

theorem ctrByte_returns {index : ℕ} (hi : index < 16) (buf : Buffer 16) (m : Memory) :
    Returns (ctrByte input output sequence roundKeys keySize index buf) m fun buf' m' =>
      buf' = (if index = 0 then firstBlock sequence roundKeys keySize m.byte else buf) ∧
      m'.byte = update m.byte (offset output index)
        (buf' ⟨index, hi⟩ ^^^ m.byte (offset input index)) := by
  refine (refillSequence_apply sequence roundKeys keySize hi buf m).bind fun buf' m' h => ?_
  obtain ⟨hbuf, hbyte⟩ := h
  rw [xorByte, load?_of_lt _ hi]
  refine ⟨_, _, rfl, hbuf, ?_⟩
  rw [← hbyte]

theorem ctrByte_stops (buf : Buffer 16) (m : Memory) :
    Stops (ctrByte input output sequence roundKeys keySize 16 buf) m fun e _ =>
      e = .outOfBuffer :=
  Stops.bind ⟨_, _, rfl, rfl⟩

end Byte

section Loop

variable {stack : Buffer 16} {input output sequence : Word} {size : ℕ} {key : Word} {keySize : ℕ}
  {m : Memory}

theorem ctr_stops (h : 16 < size) :
    Stops (ctr stack input output sequence size key keySize) m fun e _ => e = .outOfBuffer := by
  refine Stops.bind_of_eq (a := bytesAt m.byte key (4 * keySize)) rfl (Stops.bind ?_)
  refine Halting.forLoop_stops (k := 16) (fun _ _ _ => True) trivial h ?_ ?_
  · intro i buf m' _ hi _
    exact (ctrByte_returns input output sequence _ keySize (by omega) buf m').mono
      fun _ _ _ => trivial
  · intro buf m' _
    exact ctrByte_stops input output sequence _ keySize buf m'

structure Upto (input output : Word) (m : Memory) (block : Buffer 16) (i : ℕ) (buf : Buffer 16)
    (m' : Memory) : Prop where
  filled : 0 < i → buf = block
  done : ∀ j < i, ∀ hj : j < 16,
    m'.byte (offset output j) = m.byte (offset input j) ^^^ block ⟨j, hj⟩
  rest : ∀ x, (∀ j < i, x ≠ offset output j) → m'.byte x = m.byte x

section Arrays

variable (ha : Arrays input output sequence size key keySize)
include ha

theorem Upto.step {block : Buffer 16} {i : ℕ} {buf buf' : Buffer 16} {m' m'' : Memory}
    (h : Upto input output m block i buf m') (hi : i < 16) (hsize : i < size) (hbuf : buf' = block)
    (hm : m''.byte = update m'.byte (offset output i)
      (buf' ⟨i, hi⟩ ^^^ m'.byte (offset input i))) :
    Upto input output m block (i + 1) buf' m'' := by
  have hlt := ha.size_lt
  -- The byte that is read has not been written by an earlier turn.
  have hread : m'.byte (offset input i) = m.byte (offset input i) := by
    refine h.rest _ fun j hj heq => ?_
    rcases ha.input with rfl | hapart
    · have hij := offset_inj (by omega) (by omega) heq
      omega
    · exact hapart i hsize j (by omega) heq
  refine ⟨fun _ => hbuf, fun j hj hj16 => ?_, fun x hx => ?_⟩
  · rw [hm]
    by_cases hji : j = i
    · subst hji
      rw [update_self, hread, hbuf, BitVec.xor_comm]
    · rw [update_of_ne, h.done j (by omega) hj16]
      exact fun heq => hji (offset_inj (by omega) (by omega) heq)
  · rw [hm, update_of_ne (hx i (by omega)), h.rest x fun j hj => hx j (by omega)]

theorem ctrLoop_returns {roundKeys : RoundKeys} {m₀ : Memory} (h : size ≤ 16)
    (hbyte : m₀.byte = m.byte) :
    Returns (forLoop (ctrByte input output sequence roundKeys keySize) 0 size stack) m₀
      (Upto input output m (firstBlock sequence roundKeys keySize m.byte) (0 + size)) := by
  refine Halting.forLoop_returns
    (Upto input output m (firstBlock sequence roundKeys keySize m.byte)) ⟨?_, ?_, ?_⟩ ?_
  · omega
  · omega
  · exact fun x _ => congrFun hbyte x
  · intro i buf m' _ hi hupto
    refine (ctrByte_returns input output sequence roundKeys keySize (by omega) buf m').mono ?_
    rintro buf' m'' ⟨hbuf, hm''⟩
    refine hupto.step ha (by omega) (by omega) ?_ hm''
    by_cases h0 : i = 0
    · have hsame : m'.byte = m.byte := funext fun x => hupto.rest x fun j hj => by omega
      rw [hbuf, if_pos h0, hsame]
    · rw [hbuf, if_neg h0, hupto.filled (by omega)]

theorem ctr_returns (h : size ≤ 16) :
    Returns (ctr stack input output sequence size key keySize) m fun _ m' =>
      Encrypted input output sequence size key keySize m m' := by
  refine Returns.bind_of_eq (a := bytesAt m.byte key (4 * keySize)) rfl ?_
  dsimp only
  refine Returns.bind (ctrLoop_returns (m := m) ha h rfl) fun buf m' hupto => returns_pure ⟨?_, ?_⟩
  · intro i hi
    rw [hupto.done i (by omega) (by omega), keystreamByte, Nat.div_eq_of_lt (by omega),
      Nat.mod_eq_of_lt (by omega)]
    rfl
  · exact fun x hx => hupto.rest x fun j hj => hx j (by omega)

theorem Encrypted.keystreamByte_eq {m' : Memory}
    (h : Encrypted input output sequence size key keySize m m') {i : ℕ} (hi : i < size) :
    keystreamByte m'.byte sequence key keySize i = keystreamByte m.byte sequence key keySize i := by
  have hkey : bytesAt m'.byte key (4 * keySize) = bytesAt m.byte key (4 * keySize) :=
    funext fun j => h.2 _ fun k hk => ha.key j.val j.isLt k hk
  have hblock : bytesAt m'.byte (offset sequence (16 * (i / 16))) 16 =
      bytesAt m.byte (offset sequence (16 * (i / 16))) 16 := by
    funext j
    refine h.2 _ fun k hk => ?_
    rw [offset_offset]
    exact ha.sequence _ (by rw [roundUp]; omega) k hk
  rw [keystreamByte, keystreamByte, hkey, hblock]

end Arrays

theorem ctrDecrypt_ctrEncrypt {message : Word}
    (ha : Arrays input output sequence size key keySize)
    (hb : Arrays output message sequence size key keySize) (h : size ≤ 16) :
    Returns (do
        ctrEncrypt stack input output size sequence key keySize
        ctrDecrypt stack output message size sequence key keySize) m
      fun _ m' => ∀ i < size, m'.byte (offset message i) = m.byte (offset input i) := by
  refine (ctr_returns ha h).bind fun _ m' h' => (ctr_returns hb h).mono fun _ m'' h'' i hi => ?_
  rw [h''.1 i hi, h'.1 i hi, h'.keystreamByte_eq ha hi, BitVec.xor_assoc, BitVec.xor_self,
    BitVec.xor_zero]

end Loop

section Touches

variable {T : Word → Prop} {input output sequence : Word} {size : ℕ} {key : Word} {keySize : ℕ}

def TouchedIn (T : Word → Prop) (m : Memory) : Prop := ∀ x ∈ m.touched, T x

theorem readBytes_touches {p : Word} {n : ℕ} (h : ∀ i < n, T (offset p i)) :
    Keeps (TouchedIn T) (fun _ => False) (readBytes p n) := by
  refine (keeps_modify fun m hm x hx => ?_).bind fun _ => keeps_get.bind fun _ => keeps_pure _
  rcases List.mem_append.mp hx with hx | hx
  · obtain ⟨i, hi, rfl⟩ := List.mem_map.mp hx
    exact h i (List.mem_range.mp hi)
  · exact hm x hx

theorem touchedIn_cons {m : Memory} {a : Word} (ha : T a) (hm : TouchedIn T m) :
    ∀ x ∈ a :: m.touched, T x :=
  List.forall_mem_cons.mpr ⟨ha, hm⟩

theorem ctrByte_touches {roundKeys : RoundKeys} {index : ℕ} (hi : index < size) (h16 : index < 16)
    (hinput : T (offset input index)) (houtput : T (offset output index))
    (hsequence : ∀ i < roundUp size, T (offset sequence i)) (buf : Buffer 16) :
    Keeps (TouchedIn T) (fun _ => False)
      (ctrByte input output sequence roundKeys keySize index buf) := by
  refine Keeps.bind ?_ fun buf' => Keeps.bind ?_ fun _ => keeps_pure buf'
  · rw [refillSequence]
    split
    · rename_i hmod
      refine (readBytes_touches fun j hj => ?_).bind fun block => ?_
      · simp only [BLOCK_LENGTH] at hmod hj
        rw [offset_offset]
        exact hsequence _ (by rw [roundUp]; omega)
      · rw [if_pos (by simp only [BLOCK_LENGTH] at *; omega)]
        exact keeps_pure _
    · exact keeps_pure buf
  · rw [xorByte, load?_of_lt _ h16]
    refine Keeps.bind ?_ fun b => keeps_modify fun m hm => touchedIn_cons houtput hm
    refine (keeps_modify fun m hm => ?_).bind fun _ => keeps_get.bind fun _ => keeps_pure _
    exact touchedIn_cons hinput hm

theorem ctr_touches (stack : Buffer 16) (h16 : size ≤ 16) (hinput : ∀ i < size, T (offset input i))
    (houtput : ∀ i < size, T (offset output i))
    (hsequence : ∀ i < roundUp size, T (offset sequence i))
    (hkey : ∀ i < 4 * keySize, T (offset key i)) :
    Keeps (TouchedIn T) (fun _ => False) (ctr stack input output sequence size key keySize) := by
  refine (readBytes_touches hkey).bind fun keyBytes => Keeps.bind (fun m hm => ?_)
    fun _ => keeps_pure ()
  refine forLoop_ends (fun _ _ => TouchedIn T) hm fun i buf m' _ hi hm' => ?_
  exact ctrByte_touches (by omega) (by omega) (hinput i (by omega)) (houtput i (by omega)) hsequence
    buf m' hm'

end Touches

theorem ctrCorrect_iff (stack : Buffer 16) (input output sequence : Word) (size : ℕ) (key : Word)
    (keySize : ℕ) (m : Memory) (ha : Arrays input output sequence size key keySize) :
    CtrCorrect stack input output sequence size key keySize m ↔ size ≤ 16 := by
  constructor
  · intro h
    by_contra hsize
    exact (ctr_stops (by omega)).not_returns h.1
  · intro h
    exact ⟨ctr_returns ha h, fun message hb => ctrDecrypt_ctrEncrypt ha hb h⟩

theorem ctrCorrect_iff_inPlace :
    CtrCorrect (fun _ => 0) 0 0 0x10 3 0x20 8 ⟨fun _ => 0, []⟩ ↔ 3 ≤ 16 := by
  refine ctrCorrect_iff _ _ _ _ _ _ _ _ ⟨by decide, Or.inl rfl, ?_, ?_⟩
  · unfold Apart
    decide
  · unfold Apart
    decide

/-- The message of `ctrtest.c` has 29 bytes. -/
theorem not_ctrCorrect_ctrtest :
    Arrays 0 0x20 0x40 29 0x60 8 ∧
      ¬ CtrCorrect (fun _ => 0) 0 0x20 0x40 29 0x60 8 ⟨fun _ => 0, []⟩ := by
  refine ⟨⟨by decide, Or.inr ?_, ?_, ?_⟩, fun h => (ctr_stops (by decide)).not_returns h.1⟩
  all_goals
    unfold Apart
    decide

end Xv6Prng
