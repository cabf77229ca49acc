import Xv6Prng.BufferCache

/-!
# The structures on the disk

The superblock, the inodes, the free bit map and the blocks of addresses of `fs.h`, in the
bytes of a block. An inode is 64 bytes, so that a block holds eight; a block of the bit map
has a bit for each of 4096 blocks.
-/

namespace Xv6Prng.FileSys

open ByteWords Fs

abbrev Short := BitVec 16

abbrev BSIZE : ℕ := 512
abbrev NDIRECT : ℕ := 12
abbrev NINDIRECT : ℕ := 128
abbrev MAXFILE : ℕ := 140
abbrev IPB : ℕ := 8
abbrev BPB : ℕ := 4096
abbrev ROOTINO : ℕ := 1

instance (priority := high) neZero_addrs : NeZero (NDIRECT + 1) := ⟨Nat.succ_ne_zero NDIRECT⟩

abbrev T_DIR : Short := 1
abbrev T_FILE : Short := 2
abbrev T_DEV : Short := 3

structure Superblock where
  size : Word
  nblocks : Word
  ninodes : Word
  nlog : Word
  logstart : Word
  inodestart : Word
  bmapstart : Word
  deriving DecidableEq

namespace Superblock

def ofBlock (b : DiskBlock) : Superblock where
  size := loadWord b 0
  nblocks := loadWord b 1
  ninodes := loadWord b 2
  nlog := loadWord b 3
  logstart := loadWord b 4
  inodestart := loadWord b 5
  bmapstart := loadWord b 6

def words (sb : Superblock) : List Word :=
  [sb.size, sb.nblocks, sb.ninodes, sb.nlog, sb.logstart, sb.inodestart, sb.bmapstart]

def toBlock (sb : Superblock) (b : DiskBlock) : DiskBlock :=
  storeWords b 0 7 fun k => sb.words.getD k 0

theorem ofBlock_toBlock (sb : Superblock) (b : DiskBlock) : ofBlock (sb.toBlock b) = sb := by
  simp only [ofBlock, toBlock, loadWord_storeWords b 0 7 _ (show 4 * 0 + 4 ≤ 512 by decide),
    loadWord_storeWords b 0 7 _ (show 4 * 1 + 4 ≤ 512 by decide),
    loadWord_storeWords b 0 7 _ (show 4 * 2 + 4 ≤ 512 by decide),
    loadWord_storeWords b 0 7 _ (show 4 * 3 + 4 ≤ 512 by decide),
    loadWord_storeWords b 0 7 _ (show 4 * 4 + 4 ≤ 512 by decide),
    loadWord_storeWords b 0 7 _ (show 4 * 5 + 4 ≤ 512 by decide),
    loadWord_storeWords b 0 7 _ (show 4 * 6 + 4 ≤ 512 by decide)]
  rfl

/-- `IBLOCK(i, sb)`, in `uint` arithmetic. -/
def iblock (sb : Superblock) (i : ℕ) : Word := BitVec.ofNat 32 (i / IPB + sb.inodestart.toNat)

def bblock (sb : Superblock) (b : ℕ) : Word := BitVec.ofNat 32 (b / BPB + sb.bmapstart.toNat)

def dataStart (sb : Superblock) : ℕ := sb.bmapstart.toNat + sb.size.toNat / BPB + 1

end Superblock

structure Dinode where
  type : Short
  major : Short
  minor : Short
  nlink : Short
  size : Word
  addrs : Fin (NDIRECT + 1) → Word
  deriving DecidableEq

namespace Dinode

def zero : Dinode := ⟨0, 0, 0, 0, 0, fun _ => 0⟩

def setAddr (d : Dinode) (k : Fin (NDIRECT + 1)) (b : Word) : Dinode :=
  { d with addrs := Function.update d.addrs k b }

theorem addrs_setAddr (d : Dinode) (k : Fin (NDIRECT + 1)) (b : Word) :
    (d.setAddr k b).addrs = Function.update d.addrs k b := rfl

def word (d : Dinode) : ℕ → Word
  | 0 => d.major ++ d.type
  | 1 => d.nlink ++ d.minor
  | 2 => d.size
  | k + 3 => if h : k < NDIRECT + 1 then d.addrs ⟨k, h⟩ else 0

def ofWords (w : ℕ → Word) : Dinode where
  type := (w 0).extractLsb' 0 16
  major := (w 0).extractLsb' 16 16
  minor := (w 1).extractLsb' 0 16
  nlink := (w 1).extractLsb' 16 16
  size := w 2
  addrs k := w (k.val + 3)

theorem extractLsb'_append_low (a b : Short) : (a ++ b).extractLsb' 0 16 = b := by
  ext i hi
  simp only [BitVec.getElem_extractLsb', BitVec.getLsbD_append]
  simp [hi]

theorem extractLsb'_append_high (a b : Short) : (a ++ b).extractLsb' 16 16 = a := by
  ext i hi
  simp only [BitVec.getElem_extractLsb', BitVec.getLsbD_append]
  simp [hi]

theorem ofWords_word (d : Dinode) : ofWords d.word = d := by
  cases d with
  | mk type major minor nlink size addrs =>
    simp only [ofWords, word, extractLsb'_append_low, extractLsb'_append_high, Fin.is_lt, dite_true]

theorem ofWords_congr {v w : ℕ → Word} (h : ∀ k < 16, v k = w k) : ofWords v = ofWords w := by
  have haddrs (k : Fin (NDIRECT + 1)) : v (k.val + 3) = w (k.val + 3) :=
    h _ (Nat.add_lt_add_right k.isLt 3)
  simp only [ofWords, h 0 (by omega), h 1 (by omega), h 2 (by omega), haddrs]

end Dinode

/-- `*((struct dinode*)bp->data + j)` -/
def getDinode (b : DiskBlock) (j : ℕ) : Dinode := .ofWords fun k => loadWord b (16 * j + k)

def setDinode (b : DiskBlock) (j : ℕ) (d : Dinode) : DiskBlock := storeWords b (16 * j) 16 d.word

theorem getDinode_setDinode_self (b : DiskBlock) {j : ℕ} (d : Dinode) (hj : j < IPB) :
    getDinode (setDinode b j d) j = d := by
  have hj' : j < 8 := hj
  have hword (k : ℕ) (hk : k < 16) : loadWord (setDinode b j d) (16 * j + k) = d.word k := by
    rw [setDinode, loadWord_storeWords _ _ _ _ (by omega), if_pos (by omega)]
    congr 1
    omega
  rw [getDinode, Dinode.ofWords_congr hword, Dinode.ofWords_word]

theorem getDinode_setDinode_ne (b : DiskBlock) {j l : ℕ} (d : Dinode) (hl : l < IPB)
    (hne : l ≠ j) : getDinode (setDinode b j d) l = getDinode b l := by
  have hl' : l < 8 := hl
  refine Dinode.ofWords_congr fun k hk => ?_
  rw [setDinode, loadWord_storeWords _ _ _ _ (by omega), if_neg (by omega)]

theorem getDinode_zero (j : ℕ) : getDinode (fun _ => 0) j = Dinode.zero := by
  simp only [getDinode, loadWord_zero]
  rfl

def bitMask (bi : ℕ) : Byte := 1 <<< (bi % 8)

def bitSet (b : DiskBlock) (bi : ℕ) : Bool := byteAt b (bi / 8) &&& bitMask bi != 0

def storeByte (b : DiskBlock) (k : ℕ) (x : Byte) : DiskBlock := fun i => if i.val = k then x else b i

def markBit (b : DiskBlock) (bi : ℕ) : DiskBlock :=
  storeByte b (bi / 8) (byteAt b (bi / 8) ||| bitMask bi)

def clearBit (b : DiskBlock) (bi : ℕ) : DiskBlock :=
  storeByte b (bi / 8) (byteAt b (bi / 8) &&& ~~~bitMask bi)

theorem getLsbD_bitMask (bi k : ℕ) (hk : k < 8) : (bitMask bi).getLsbD k = decide (k = bi % 8) := by
  have hbi : bi % 8 < 8 := Nat.mod_lt _ (by decide)
  simp only [bitMask]
  interval_cases bi % 8 <;> interval_cases k <;> decide

theorem and_bitMask_ne_zero (x : Byte) (bi : ℕ) :
    (x &&& bitMask bi != 0) = x.getLsbD (bi % 8) := by
  have hbi : bi % 8 < 8 := Nat.mod_lt _ (by decide)
  rw [Bool.eq_iff_iff, bne_iff_ne, ne_eq]
  constructor
  · intro hne
    by_contra hbit
    refine hne (BitVec.eq_of_getLsbD_eq fun k hk => ?_)
    rw [BitVec.getLsbD_and, getLsbD_bitMask bi k hk]
    by_cases hkb : k = bi % 8
    · simpa [hkb] using hbit
    · simp [hkb]
  · intro hbit hzero
    have hk := congrArg (BitVec.getLsbD · (bi % 8)) hzero
    simp [getLsbD_bitMask bi _ hbi, hbit] at hk

theorem bitSet_eq (b : DiskBlock) (bi : ℕ) : bitSet b bi = (byteAt b (bi / 8)).getLsbD (bi % 8) :=
  and_bitMask_ne_zero _ bi

theorem byteAt_storeByte (b : DiskBlock) (k : ℕ) (x : Byte) {i : ℕ} (hi : i < BSIZE) :
    byteAt (storeByte b k x) i = if i = k then x else byteAt b i := by
  rw [byteAt_of_lt _ hi, byteAt_of_lt _ hi]
  rfl

theorem bitSet_markBit (b : DiskBlock) {bi bj : ℕ} (hj : bj < BPB) :
    bitSet (markBit b bi) bj = (decide (bj = bi) || bitSet b bj) := by
  have hj' : bj < 4096 := hj
  rw [bitSet_eq, bitSet_eq, markBit, byteAt_storeByte _ _ _ (show bj / 8 < 512 by omega)]
  split_ifs with hbyte
  · rw [hbyte, BitVec.getLsbD_or, getLsbD_bitMask bi _ (by omega), Bool.or_comm]
    congr 1
    exact decide_eq_decide.mpr (by omega)
  · rw [decide_eq_false (by rintro rfl; exact hbyte rfl), Bool.false_or]
def markFirst (n : ℕ) : DiskBlock := (List.range n).foldl markBit fun _ => 0

theorem bitSet_zero (bi : ℕ) : bitSet (fun _ => 0) bi = false := by
  rw [bitSet_eq, byteAt, load?]
  split_ifs <;> simp

theorem bitSet_markFirst (n : ℕ) {bi : ℕ} (h : bi < BPB) :
    bitSet (markFirst n) bi = decide (bi < n) := by
  induction n with
  | zero =>
    rw [markFirst, List.range_zero, List.foldl_nil, bitSet_zero, decide_eq_false (Nat.not_lt_zero bi)]
  | succ n ih =>
    rw [markFirst, List.range_succ, List.foldl_append, List.foldl_cons, List.foldl_nil,
      bitSet_markBit _ h]
    rw [markFirst] at ih
    rw [ih, ← Bool.decide_or]
    exact decide_eq_decide.mpr (by omega)

end Xv6Prng.FileSys
