import Xv6Prng.Inodes
import Xv6Prng.Library.BlockMap

/-!
# Which file a block belongs to

An inode has 141 slots for block numbers: its direct addresses, the address of the indirect
block, and the entries of that block. `State.addr` gives the block in a slot of an allocated
inode as the kernel sees it, that is, in the cached copy if there is one. `balloc` and `bmap`
take a block and put it in an empty slot, `itrunc` empties the slots of one inode.
-/

namespace Xv6Prng.FileSys

open ByteWords Halting Fs BlockMap Function

/-- The parts of the disk lie one after the other: the superblock, the inodes, the bit map and
the data. -/
structure Superblock.Layout (sb : Superblock) : Prop where
  inodes : 2 ≤ sb.inodestart.toNat
  bitmap : sb.inodestart.toNat + sb.ninodes.toNat / IPB + 1 ≤ sb.bmapstart.toNat
  data : sb.dataStart ≤ sb.size.toNat
  disk : sb.size.toNat ≤ FSSIZE

theorem Superblock.bmapstart_lt (sb : Superblock) : sb.bmapstart.toNat < sb.dataStart :=
  Nat.lt_succ_of_le (Nat.le_add_right _ _)

namespace Superblock.Layout

variable {sb : Superblock} (h : sb.Layout)

include h

variable {i : ℕ}

theorem toNat_iblock (hi : i < sb.ninodes.toNat) :
    (sb.iblock i).toNat = i / IPB + sb.inodestart.toNat := by
  have hdiv : i / IPB ≤ sb.ninodes.toNat / IPB := Nat.div_le_div_right hi.le
  have hdata := h.data
  have hbitmap := h.bitmap
  have hdisk := h.disk
  simp only [Superblock.dataStart, FSSIZE] at hdata hdisk
  rw [Superblock.iblock, BitVec.toNat_ofNat, Nat.mod_eq_of_lt (by omega)]

theorem iblock_lt (hi : i < sb.ninodes.toNat) :
    1 < (sb.iblock i).toNat ∧ (sb.iblock i).toNat < sb.bmapstart.toNat := by
  have hdiv : i / IPB ≤ sb.ninodes.toNat / IPB := Nat.div_le_div_right hi.le
  have hbitmap := h.bitmap
  have hinodes := h.inodes
  rw [h.toNat_iblock hi]
  exact ⟨Nat.lt_of_lt_of_le hinodes (Nat.le_add_left _ _), by linarith⟩

theorem iblock_inj {j : ℕ} (hi : i < sb.ninodes.toNat) (hj : j < sb.ninodes.toNat)
    (hblock : sb.iblock i = sb.iblock j) (hslot : i % IPB = j % IPB) : i = j := by
  have hnat := congrArg BitVec.toNat hblock
  rw [h.toNat_iblock hi, h.toNat_iblock hj] at hnat
  simp only [IPB] at hnat hslot
  omega

theorem toNat_bblock {b : ℕ} (hb : b < sb.size.toNat) :
    (sb.bblock b).toNat = sb.bmapstart.toNat := by
  have hdata := h.data
  have hdisk := h.disk
  simp only [Superblock.dataStart, FSSIZE, BPB] at hdata hdisk
  rw [Superblock.bblock, BitVec.toNat_ofNat, BPB, Nat.div_eq_of_lt (by omega), Nat.zero_add,
    Nat.mod_eq_of_lt (by omega)]

theorem bblock_eq {b : ℕ} (hb : b < sb.size.toNat) : sb.bblock b = sb.bmapstart :=
  BitVec.eq_of_toNat_eq (h.toNat_bblock hb)

theorem mod_BPB {b : ℕ} (hb : b < sb.size.toNat) : b % BPB = b := by
  have hdisk := h.disk
  simp only [FSSIZE] at hdisk
  exact Nat.mod_eq_of_lt (show b < 4096 by omega)

theorem bmapstart_lt_disk : sb.bmapstart.toNat < FSSIZE :=
  sb.bmapstart_lt.trans_le (h.data.trans h.disk)

theorem one_lt_bmapstart : 1 < sb.bmapstart.toNat := by
  have hbitmap := h.bitmap
  have hinodes := h.inodes
  linarith [Nat.zero_le (sb.ninodes.toNat / IPB)]

theorem bmapstart_ne_one : sb.bmapstart ≠ 1 :=
  fun heq => h.one_lt_bmapstart.ne' (congrArg BitVec.toNat heq)

theorem iblock_ne_one (hi : i < sb.ninodes.toNat) : sb.iblock i ≠ 1 :=
  fun heq => (h.iblock_lt hi).1.ne' (congrArg BitVec.toNat heq)

theorem iblock_ne_bmapstart (hi : i < sb.ninodes.toNat) : sb.iblock i ≠ sb.bmapstart :=
  fun heq => (h.iblock_lt hi).2.ne (congrArg BitVec.toNat heq)

end Superblock.Layout

def slot (disk : Disk) (d : Dinode) (a : ℕ) : Word :=
  if h : a ≤ NDIRECT then d.addrs ⟨a, Nat.lt_succ_of_le h⟩
  else if d.addrs (Fin.last NDIRECT) = 0 ∨ NDIRECT + NINDIRECT < a then 0
  else loadWord (disk (d.addrs (Fin.last NDIRECT))) (a - (NDIRECT + 1))

def blockSlot (bn : ℕ) : ℕ := if bn < NDIRECT then bn else bn + 1

namespace State

variable (s : State)

def bit (b : ℕ) : Bool := bitSet (s.disk (s.sb.bblock b)) (b % BPB)

def dinode (i : ℕ) : Dinode := getDinode (s.disk (s.sb.iblock i)) (i % IPB)

def Holds (k : Fin NINODE) (i : ℕ) : Prop :=
  0 < (s.icache k).ref ∧ (s.icache k).valid = true ∧ (s.icache k).inum = i

instance (k : Fin NINODE) (i : ℕ) : Decidable (s.Holds k i) :=
  inferInstanceAs (Decidable (_ ∧ _ ∧ _))

def inode (i : ℕ) : Dinode :=
  match (List.finRange NINODE).find? fun k => s.Holds k i with
  | some k => (s.icache k).copy
  | none => s.dinode i

def Live (i : ℕ) : Prop := 1 ≤ i ∧ i < s.sb.ninodes.toNat ∧ (s.inode i).type ≠ 0

instance (i : ℕ) : Decidable (s.Live i) := inferInstanceAs (Decidable (_ ∧ _ ∧ _))

def addr (k : ℕ × ℕ) : ℕ := if s.Live k.1 then (slot s.disk (s.inode k.1) k.2).toNat else 0

def free : ℕ := ((Finset.range s.sb.size.toNat).filter fun b => s.bit b = false).card

def logCap : ℕ := min LOGSIZE (s.logSize - 1)

def log (b : Word) (data : DiskBlock) : State :=
  { s with
    disk := Function.update s.disk b data
    lh := if b ∈ s.lh then s.lh else s.lh ++ [b] }

def putInode (ip : Fin NINODE) (x : Inode) : State :=
  { s with icache := Function.update s.icache ip x }

def putCopy (ip : Fin NINODE) (d : Dinode) : State :=
  s.putInode ip { s.icache ip with copy := d }

end State

structure Mounted (s : State) : Prop where
  nodup : s.lh.Nodup
  super : s.sb = .ofBlock (s.disk 1)
  layout : s.sb.Layout
  unique : ∀ k l, 0 < (s.icache k).ref → 0 < (s.icache l).ref →
    (s.icache k).inum = (s.icache l).inum → k = l
  range : ∀ k, 0 < (s.icache k).ref →
    1 ≤ (s.icache k).inum ∧ (s.icache k).inum < s.sb.ninodes.toNat

/-- No block is in two slots, and the bit map marks the blocks in slots, those in `loose`, and
all blocks before the data. -/
structure Owns (loose : Set ℕ) (s : State) : Prop where
  owned : Owned s.addr (fun b => s.bit b = true) s.sb.dataStart s.sb.size.toNat loose
  meta_used : ∀ b < s.sb.dataStart, s.bit b = true

def NoHoles (s : State) : Prop :=
  ∀ i, s.Live i → (s.inode i).type = T_FILE ∨ (s.inode i).type = T_DIR →
    ∀ bn, bn * BSIZE < (s.inode i).size.toNat → s.addr (i, blockSlot bn) ≠ 0

variable {k : Fin NINODE} {l : ℕ} {x : ℕ × ℕ}

section Frame

variable {s s' : State} {ip : Fin NINODE} {i : ℕ}

theorem holds_iff_eq (h : Mounted s) {l : Fin NINODE} (hk : s.Holds k i) : s.Holds l i ↔ l = k :=
  ⟨fun hl => h.unique l k hl.1 hk.1 (hl.2.2.trans hk.2.2.symm), fun hl => hl ▸ hk⟩

theorem inode_of_holds (h : Mounted s) (hip : s.Holds ip i) :
    s.inode i = (s.icache ip).copy := by
  have hfind : (List.finRange NINODE).find? (fun k => s.Holds k i) = some ip := by
    cases hf : (List.finRange NINODE).find? fun k => s.Holds k i with
    | none =>
      have hnone := List.find?_eq_none.mp hf ip (List.mem_finRange ip)
      exact absurd (decide_eq_true hip) hnone
    | some k =>
      have hk : s.Holds k i := by simpa using List.find?_some hf
      rw [(holds_iff_eq h hip).mp hk]
  rw [State.inode, hfind]

theorem inode_of_not_holds (hnot : ∀ k, ¬ s.Holds k i) : s.inode i = s.dinode i := by
  have hfind : (List.finRange NINODE).find? (fun k => s.Holds k i) = none :=
    List.find?_eq_none.mpr fun k _ => by simpa using hnot k
  rw [State.inode, hfind]

theorem inode_congr (hcache : s'.icache = s.icache) (hdisk : s'.dinode i = s.dinode i) :
    s'.inode i = s.inode i := by
  have hfind : (fun k => decide (s'.Holds k i)) = fun k => decide (s.Holds k i) := by
    funext k
    exact decide_eq_decide.mpr (by rw [State.Holds, State.Holds, hcache])
  rw [State.inode, State.inode, hfind, hcache, hdisk]

theorem inode_congr_of_holds (hm : Mounted s) (hm' : Mounted s')
    (hholds : ∀ k, s'.Holds k i ↔ s.Holds k i)
    (hcopy : ∀ k, s.Holds k i → (s'.icache k).copy = (s.icache k).copy)
    (hdinode : (∀ k, ¬ s.Holds k i) → s'.dinode i = s.dinode i) : s'.inode i = s.inode i := by
  by_cases hex : ∃ k, s.Holds k i
  · obtain ⟨k, hk⟩ := hex
    rw [inode_of_holds hm hk, inode_of_holds hm' ((hholds k).mpr hk), hcopy k hk]
  · have hnot (k : Fin NINODE) : ¬ s.Holds k i := fun hk => hex ⟨k, hk⟩
    rw [inode_of_not_holds hnot, inode_of_not_holds fun k hk => hnot k ((hholds k).mp hk),
      hdinode hnot]

theorem State.Holds.ne {j : ℕ} (hk : s.Holds k j) (hip : s.Holds ip i) (hne : j ≠ i) : k ≠ ip := by
  rintro rfl
  exact hne (hk.2.2.symm.trans hip.2.2)

theorem live_congr (hsb : s'.sb = s.sb) (hinode : s'.inode i = s.inode i) :
    s'.Live i ↔ s.Live i := by
  simp only [State.Live, hsb, hinode]

theorem slot_congr {disk disk' : Disk} {d : Dinode} {a : ℕ}
    (h : d.addrs (Fin.last NDIRECT) ≠ 0 →
      disk' (d.addrs (Fin.last NDIRECT)) = disk (d.addrs (Fin.last NDIRECT))) :
    slot disk' d a = slot disk d a := by
  rw [slot, slot]
  split_ifs with hle hzero
  · rfl
  · rfl
  · rw [h fun h0 => hzero (.inl h0)]

theorem slot_last (disk : Disk) (d : Dinode) :
    slot disk d NDIRECT = d.addrs (Fin.last NDIRECT) := by
  rw [slot, dif_pos le_rfl]
  rfl

theorem addr_of_live (h : s.Live i) (a : ℕ) :
    s.addr (i, a) = (slot s.disk (s.inode i) a).toNat := if_pos h

theorem live_of_addr {k : ℕ × ℕ} (h : s.addr k ≠ 0) : s.Live k.1 := by
  by_contra hnot
  exact h (if_neg hnot)

theorem addr_congr (hsb : s'.sb = s.sb) (hinode : ∀ i < s.sb.ninodes.toNat, s'.inode i = s.inode i)
    (hdisk : ∀ i, s.addr (i, NDIRECT) ≠ 0 →
      s'.disk (BitVec.ofNat 32 (s.addr (i, NDIRECT))) = s.disk (BitVec.ofNat 32 (s.addr (i, NDIRECT))))
    (k : ℕ × ℕ) : s'.addr k = s.addr k := by
  by_cases hlive : s.Live k.1
  · have hi := hinode k.1 hlive.2.1
    have hlive' := (live_congr hsb hi).mpr hlive
    rw [addr_of_live (a := k.2) hlive, addr_of_live (a := k.2) hlive', hi]
    refine congrArg BitVec.toNat (slot_congr fun hne => ?_)
    have haddr := addr_of_live hlive NDIRECT
    rw [slot_last] at haddr
    have hne' : s.addr (k.1, NDIRECT) ≠ 0 := by
      rw [haddr]
      exact fun h0 => hne (BitVec.eq_of_toNat_eq h0)
    have hd := hdisk k.1 hne'
    rwa [haddr, BitVec.ofNat_toNat, BitVec.setWidth_eq] at hd
  · have hlive' : ¬ s'.Live k.1 := fun hl => by
      have hlt : k.1 < s.sb.ninodes.toNat := hsb ▸ hl.2.1
      exact hlive ((live_congr hsb (hinode k.1 hlt)).mp hl)
    rw [State.addr, State.addr, if_neg hlive, if_neg hlive']

end Frame

section Log

variable {s : State} {b : Word} {data : DiskBlock}

theorem bread_run (hb : b.toNat < FSSIZE) : (bread b).run s = .ok (s.disk b) s := by
  rw [bread, get_bind, if_neg (Nat.not_le.mpr hb)]
  rfl

theorem logWrite_ends (hout : 1 ≤ s.outstanding) :
    Ends (logWrite b data) s (fun _ s' => s' = s.log b data)
      (fun e _ => e = .panic "too big a transaction" ∧ s.logCap ≤ s.lh.length) := by
  refine ends_get_bind ?_
  by_cases hfull : s.lh.length ≥ LOGSIZE ∨ s.lh.length ≥ s.logSize - 1
  · rw [if_pos hfull]
    refine ends_throw ⟨rfl, ?_⟩
    rcases hfull with hfull | hfull
    · exact (Nat.min_le_left _ _).trans hfull
    · exact (Nat.min_le_right _ _).trans hfull
  · rw [if_neg hfull, if_neg (Nat.not_lt.mpr hout)]
    exact rfl

@[simp] theorem sb_log : (s.log b data).sb = s.sb := rfl
@[simp] theorem disk_log : (s.log b data).disk = update s.disk b data := rfl

theorem mem_lh_log {c : Word} : c ∈ (s.log b data).lh ↔ c = b ∨ c ∈ s.lh := by
  rw [State.log]
  dsimp only
  split_ifs with hin
  · exact ⟨.inr, fun h => h.elim (fun hc => hc ▸ hin) id⟩
  · rw [List.mem_append, List.mem_singleton, or_comm]

theorem toFinset_lh_log : (s.log b data).lh.toFinset = insert b s.lh.toFinset := by
  ext c
  rw [List.mem_toFinset, mem_lh_log, Finset.mem_insert, List.mem_toFinset]

theorem nodup_lh_log (h : s.lh.Nodup) : (s.log b data).lh.Nodup := by
  rw [State.log]
  dsimp only
  split_ifs with hin
  · exact h
  · exact List.concat_eq_append ▸ h.concat hin

theorem Mounted.log (h : Mounted s) (hb : b ≠ 1) : Mounted (s.log b data) :=
  { h with
    nodup := nodup_lh_log h.nodup
    super := by
      rw [show (s.log b data).disk 1 = s.disk 1 from update_of_ne hb.symm _ _]
      exact h.super }

theorem Mounted.length_lh (h : Mounted s) : s.lh.length = s.lh.toFinset.card :=
  (List.toFinset_card_of_nodup h.nodup).symm

theorem dinode_log {i : ℕ} (hb : s.sb.iblock i ≠ b) : (s.log b data).dinode i = s.dinode i := by
  exact congrArg (getDinode · (i % IPB)) (update_of_ne hb _ _)

theorem inode_log {i : ℕ} (hb : s.sb.iblock i ≠ b) : (s.log b data).inode i = s.inode i :=
  inode_congr rfl (dinode_log hb)

theorem bit_log {c : ℕ} (hb : s.sb.bblock c ≠ b) : (s.log b data).bit c = s.bit c := by
  exact congrArg (bitSet · (c % BPB)) (update_of_ne hb _ _)

end Log

section Blocks

variable {s : State} {loose : Set ℕ} {b c : ℕ}

theorem toNat_ofNat_of_lt (hl : s.sb.Layout) (hb : b < s.sb.size.toNat) :
    (BitVec.ofNat 32 b).toNat = b := by
  have hdisk := hl.disk
  simp only [FSSIZE] at hdisk
  rw [BitVec.toNat_ofNat, Nat.mod_eq_of_lt (by omega)]

def State.take (s : State) (b : ℕ) : State :=
  (s.log s.sb.bmapstart (markBit (s.disk s.sb.bmapstart) b)).log (BitVec.ofNat 32 b) fun _ => 0
theorem bit_eq (hl : s.sb.Layout) (hb : b < s.sb.size.toNat) :
    s.bit b = bitSet (s.disk s.sb.bmapstart) b := by
  rw [State.bit, hl.bblock_eq hb, hl.mod_BPB hb]

theorem ballocFrom_ends (h : Mounted s) (hout : 1 ≤ s.outstanding) {n : ℕ}
    (hn : b + n = s.sb.size.toNat) :
    Ends (ballocFrom b n) s
      (fun w s' => ∃ c < s.sb.size.toNat, s.bit c = false ∧ w = BitVec.ofNat 32 c ∧ s' = s.take c)
      (fun e _ => e = .panic "balloc: out of blocks" ∧
          (∀ c, b ≤ c → c < s.sb.size.toNat → s.bit c = true) ∨
        e = .panic "too big a transaction" ∧
          s.logCap ≤ (insert s.sb.bmapstart s.lh.toFinset).card) := by
  induction n generalizing b with
  | zero => exact ends_throw (.inl ⟨rfl, fun c hc hc' => by omega⟩)
  | succ n ih =>
    have hb : b < s.sb.size.toNat := by omega
    have hl := h.layout
    refine ends_get_bind ?_
    rw [hl.bblock_eq hb, hl.mod_BPB hb]
    refine Ends.bind_of_eq (bread_run hl.bmapstart_lt_disk) ?_
    by_cases hbit : bitSet (s.disk s.sb.bmapstart) b = true
    · rw [if_pos hbit]
      refine (ih (by omega)).mono (fun _ _ hP => hP) fun e s' hE => hE.imp_left fun ⟨he, hall⟩ => ?_
      refine ⟨he, fun c hc hc' => ?_⟩
      rcases Nat.eq_or_lt_of_le hc with rfl | hlt
      · rw [bit_eq hl hc', hbit]
      · exact hall c hlt hc'
    · rw [if_neg hbit]
      have hcard : s.lh.length ≤ (insert s.sb.bmapstart s.lh.toFinset).card := by
        rw [h.length_lh]
        exact Finset.card_le_card (Finset.subset_insert _ _)
      refine (logWrite_ends hout).bind_imp (fun e _ hE => .inr ⟨hE.1, hE.2.trans hcard⟩) ?_
      rintro _ _ rfl
      have hb32 : (BitVec.ofNat 32 b).toNat < FSSIZE := by
        rw [toNat_ofNat_of_lt hl hb]
        exact hb.trans_le hl.disk
      refine Ends.bind (P := fun _ s' => s' = s.take b) ?_ ?_
      · refine Ends.bind_of_eq (bread_run hb32) ?_
        refine (logWrite_ends (s := s.log _ _) hout).mono (fun _ _ hP => hP) fun e _ hE => ?_
        refine .inr ⟨hE.1, ?_⟩
        have hlog : Mounted (s.log s.sb.bmapstart (markBit (s.disk s.sb.bmapstart) b)) :=
          h.log hl.bmapstart_ne_one
        have hlen := hlog.length_lh
        rw [toFinset_lh_log] at hlen
        exact hE.2.trans hlen.le
      · rintro _ _ rfl
        exact ⟨b, hb, by simpa [bit_eq hl hb] using hbit, rfl, rfl⟩

theorem balloc_ends (h : Mounted s) (hout : 1 ≤ s.outstanding) :
    Ends balloc s
      (fun w s' => ∃ c < s.sb.size.toNat, s.bit c = false ∧ w = BitVec.ofNat 32 c ∧ s' = s.take c)
      (fun e _ => e = .panic "balloc: out of blocks" ∧ s.free = 0 ∨
        e = .panic "too big a transaction" ∧
          s.logCap ≤ (insert s.sb.bmapstart s.lh.toFinset).card) := by
  refine ends_get_bind ((ballocFrom_ends h hout (Nat.zero_add _)).mono (fun _ _ hP => hP) ?_)
  refine fun e _ hE => hE.imp_left fun ⟨he, hall⟩ => ⟨he, ?_⟩
  rw [State.free, Finset.card_eq_zero, Finset.filter_eq_empty_iff]
  intro c hc
  rw [hall c (Nat.zero_le c) (Finset.mem_range.mp hc)]
  exact Bool.true_eq_false_eq_False

theorem ofNat_ne_of_lt (hl : s.sb.Layout) (hlo : s.sb.dataStart ≤ b) (hhi : b < s.sb.size.toNat)
    {w : Word} (hw : w.toNat < s.sb.dataStart) : BitVec.ofNat 32 b ≠ w := by
  rintro rfl
  rw [toNat_ofNat_of_lt hl hhi] at hw
  omega

theorem bit_take (hl : s.sb.Layout) (hlo : s.sb.dataStart ≤ b) (hhi : b < s.sb.size.toNat)
    (hc : c < s.sb.size.toNat) : (s.take b).bit c = (decide (c = b) || s.bit c) := by
  have hne : s.sb.bblock c ≠ BitVec.ofNat 32 b := by
    rw [hl.bblock_eq hc]
    exact (ofNat_ne_of_lt hl hlo hhi s.sb.bmapstart_lt).symm
  rw [State.take, bit_log (s := s.log _ _) hne, bit_eq hl hc, bit_eq (s := s.log _ _) hl hc, sb_log,
    disk_log, update_self]
  exact bitSet_markBit _ (hl.mod_BPB hc ▸ Nat.mod_lt c (by decide))
theorem Owns.dataStart_le (h : Owns loose s) (hb : s.bit b = false) : s.sb.dataStart ≤ b := by
  by_contra hlt
  rw [h.meta_used b (Nat.not_le.mp hlt)] at hb
  cases hb

theorem Owns.toNat_addr (hm : Mounted s) (h : Owns loose s) {k : ℕ × ℕ} (hk : s.addr k ≠ 0) :
    (BitVec.ofNat 32 (s.addr k)).toNat = s.addr k :=
  toNat_ofNat_of_lt hm.layout (h.owned.range k hk).2

theorem addr_log {w : Word} {data : DiskBlock}
    (hinode : ∀ i < s.sb.ninodes.toNat, s.sb.iblock i ≠ w)
    (hind : ∀ i, s.addr (i, NDIRECT) ≠ 0 → BitVec.ofNat 32 (s.addr (i, NDIRECT)) ≠ w) (k : ℕ × ℕ) :
    (s.log w data).addr k = s.addr k := by
  refine addr_congr ?_ (fun i hi => inode_log (hinode i hi))
    (fun i hi => update_of_ne (hind i hi) _ _) k
  rfl

theorem Owns.addr_log_bmapstart (hm : Mounted s) (h : Owns loose s) (data : DiskBlock) (k : ℕ × ℕ) :
    (s.log s.sb.bmapstart data).addr k = s.addr k := by
  refine addr_log (fun i hi => hm.layout.iblock_ne_bmapstart hi) (fun i hi => ?_) k
  obtain ⟨hlo, hhi⟩ := h.owned.range _ hi
  exact ofNat_ne_of_lt hm.layout hlo hhi s.sb.bmapstart_lt

theorem iblock_ne_ofNat (hm : Mounted s) (hlo : s.sb.dataStart ≤ b) (hhi : b < s.sb.size.toNat)
    {i : ℕ} (hi : i < s.sb.ninodes.toNat) : s.sb.iblock i ≠ BitVec.ofNat 32 b :=
  (ofNat_ne_of_lt hm.layout hlo hhi ((hm.layout.iblock_lt hi).2.trans s.sb.bmapstart_lt)).symm

theorem Owns.addr_take (hm : Mounted s) (h : Owns loose s) (hb : b < s.sb.size.toNat)
    (hbit : s.bit b = false) (k : ℕ × ℕ) : (s.take b).addr k = s.addr k := by
  have hlo := h.dataStart_le hbit
  have hsame := h.addr_log_bmapstart hm (markBit (s.disk s.sb.bmapstart) b)
  rw [State.take, addr_log (s := s.log _ _) (fun i hi => iblock_ne_ofNat hm hlo hb hi) ?_, hsame]
  intro i hi
  rw [hsame] at hi ⊢
  intro heq
  have hnat := congrArg BitVec.toNat heq
  rw [h.toNat_addr hm hi, toNat_ofNat_of_lt hm.layout hb] at hnat
  have hused := h.owned.used_addr hi
  rw [hnat, hbit] at hused
  cases hused

theorem Mounted.take (hm : Mounted s) (hlo : s.sb.dataStart ≤ b) (hhi : b < s.sb.size.toNat) :
    Mounted (s.take b) :=
  (hm.log hm.layout.bmapstart_ne_one).log
    (ofNat_ne_of_lt hm.layout hlo hhi (hm.layout.one_lt_bmapstart.trans s.sb.bmapstart_lt))

theorem Owns.take (hm : Mounted s) (h : Owns loose s) (hb : b < s.sb.size.toNat)
    (hbit : s.bit b = false) : Owns (insert b loose) (s.take b) := by
  have hlo := h.dataStart_le hbit
  have hl := hm.layout
  refine ⟨?_, fun c hc => ?_⟩
  · refine (h.owned.take (fun c => (s.take b).bit c = true) hlo hb (by simp [hbit])
      fun c hc hc' => ?_).congr (fun k => h.addr_take hm hb hbit k) fun c hc hc' => Iff.rfl
    rw [bit_take hl hlo hb hc', Bool.or_eq_true, decide_eq_true_eq]
  · rw [bit_take hl hlo hb (lt_of_lt_of_le hc hl.data), h.meta_used c hc, Bool.or_true]

theorem free_congr {s' : State} (hsb : s'.sb = s.sb)
    (hbit : ∀ b < s.sb.size.toNat, s'.bit b = s.bit b) : s'.free = s.free := by
  rw [State.free, State.free, hsb]
  refine congrArg Finset.card (Finset.filter_congr fun b hb => ?_)
  rw [hbit b (Finset.mem_range.mp hb)]

theorem free_take (hl : s.sb.Layout) (hlo : s.sb.dataStart ≤ b) (hb : b < s.sb.size.toNat)
    (hbit : s.bit b = false) : (s.take b).free + 1 = s.free := by
  have hmem : b ∈ (Finset.range s.sb.size.toNat).filter fun c => s.bit c = false :=
    Finset.mem_filter.mpr ⟨Finset.mem_range.mpr hb, hbit⟩
  have heq : ((Finset.range (s.take b).sb.size.toNat).filter fun c => (s.take b).bit c = false) =
      ((Finset.range s.sb.size.toNat).filter fun c => s.bit c = false).erase b := by
    ext c
    rw [Finset.mem_filter, Finset.mem_erase, Finset.mem_filter, Finset.mem_range, Finset.mem_range,
      show (s.take b).sb = s.sb from rfl]
    refine ⟨fun ⟨hc, hfree⟩ => ?_, fun ⟨hne, hc, hfree⟩ => ⟨hc, ?_⟩⟩
    · rw [bit_take hl hlo hb hc, Bool.or_eq_false_iff, decide_eq_false_iff_not] at hfree
      exact ⟨hfree.1, hc, hfree.2⟩
    · rw [bit_take hl hlo hb hc, hfree, decide_eq_false hne]
      rfl
  rw [State.free, heq]
  exact Finset.card_erase_add_one hmem

end Blocks

section Copy

variable {s : State} {ip : Fin NINODE} {i j : ℕ} {d : Dinode}

theorem icache_putCopy_self : (s.putCopy ip d).icache ip = { s.icache ip with copy := d } :=
  update_self ..

theorem icache_putCopy_of_ne (hk : k ≠ ip) :
    (s.putCopy ip d).icache k = s.icache k := update_of_ne hk _ _

theorem setInode_run (x : Inode) : (setInode ip x).run s = .ok () (s.putInode ip x) := rfl

theorem setCopy_run : (setCopy ip d).run s = .ok () (s.putCopy ip d) := rfl

theorem setAddr_run (k : Fin (NDIRECT + 1)) (b : Word) : (setAddr ip k b).run s =
    .ok () (s.putCopy ip ((s.icache ip).copy.setAddr k b)) := rfl

theorem inum_putCopy (k : Fin NINODE) : ((s.putCopy ip d).icache k).inum = (s.icache k).inum := by
  by_cases hk : k = ip
  · rw [hk, icache_putCopy_self]
  · rw [icache_putCopy_of_ne hk]

theorem ref_putCopy (k : Fin NINODE) : ((s.putCopy ip d).icache k).ref = (s.icache k).ref := by
  by_cases hk : k = ip
  · rw [hk, icache_putCopy_self]
  · rw [icache_putCopy_of_ne hk]

theorem holds_putCopy (k : Fin NINODE) : (s.putCopy ip d).Holds k j ↔ s.Holds k j := by
  rw [State.Holds, State.Holds, inum_putCopy, ref_putCopy]
  by_cases hk : k = ip
  · rw [hk, icache_putCopy_self]
  · rw [icache_putCopy_of_ne hk]

theorem Mounted.putCopy (h : Mounted s) : Mounted (s.putCopy ip d) :=
  { nodup := h.nodup
    super := h.super
    layout := h.layout
    unique := fun k l hk hl => by
      rw [ref_putCopy] at hk hl
      rw [inum_putCopy, inum_putCopy]
      exact h.unique k l hk hl
    range := fun k hk => by
      rw [ref_putCopy] at hk
      rw [inum_putCopy]
      exact h.range k hk }

theorem free_putCopy : (s.putCopy ip d).free = s.free := by
  unfold State.free State.bit
  rfl

theorem inode_putCopy_self (h : Mounted s) (hip : s.Holds ip i) :
    (s.putCopy ip d).inode i = d := by
  rw [inode_of_holds h.putCopy ((holds_putCopy ip).mpr hip), icache_putCopy_self]

theorem inode_putCopy_of_ne (h : Mounted s) (hip : s.Holds ip i) (hj : j ≠ i) :
    (s.putCopy ip d).inode j = s.inode j :=
  inode_congr_of_holds h h.putCopy holds_putCopy
    (fun _ hk => by rw [icache_putCopy_of_ne (hk.ne hip hj)]) fun _ => rfl

theorem addr_putCopy_of_ne (h : Mounted s) (hip : s.Holds ip i) (hj : j ≠ i) (a : ℕ) :
    (s.putCopy ip d).addr (j, a) = s.addr (j, a) := by
  have hinode := inode_putCopy_of_ne (d := d) h hip hj
  have hlive : (s.putCopy ip d).Live j ↔ s.Live j := live_congr rfl hinode
  by_cases hl : s.Live j
  · rw [addr_of_live hl, addr_of_live (hlive.mpr hl), hinode]
    rfl
  · rw [State.addr, State.addr, if_neg hl, if_neg (mt hlive.mp hl)]

theorem addr_putCopy_self (h : Mounted s) (hip : s.Holds ip i) (hd : d.type ≠ 0) (a : ℕ) :
    (s.putCopy ip d).addr (i, a) = (slot s.disk d a).toNat := by
  have hinode := inode_putCopy_self (d := d) h hip
  have hrange := h.range ip hip.1
  rw [hip.2.2] at hrange
  have hlive : (s.putCopy ip d).Live i := ⟨hrange.1, hrange.2, by rwa [hinode]⟩
  rw [addr_of_live hlive, hinode]
  rfl

end Copy

section Slot

variable {disk : Disk} {d : Dinode} {a : ℕ}

theorem slot_of_le (h : a ≤ NDIRECT) : slot disk d a = d.addrs ⟨a, Nat.lt_succ_of_le h⟩ := dif_pos h

theorem slot_of_lt (h : NDIRECT < a) (ha : a ≤ NDIRECT + NINDIRECT)
    (hne : d.addrs (Fin.last NDIRECT) ≠ 0) :
    slot disk d a = loadWord (disk (d.addrs (Fin.last NDIRECT))) (a - (NDIRECT + 1)) := by
  rw [slot, dif_neg (Nat.not_le.mpr h), if_neg (not_or.mpr ⟨hne, Nat.not_lt.mpr ha⟩)]

theorem slot_of_zero (h : NDIRECT < a) (h0 : d.addrs (Fin.last NDIRECT) = 0) :
    slot disk d a = 0 := by
  rw [slot, dif_neg (Nat.not_le.mpr h), if_pos (.inl h0)]

theorem slot_of_gt (h : NDIRECT + NINDIRECT < a) : slot disk d a = 0 := by
  rw [slot, dif_neg (Nat.not_le.mpr ((Nat.le_add_right _ _).trans_lt h)), if_pos (.inr h)]

theorem slot_setAddr (disk : Disk) {disk' : Disk} {k : Fin (NDIRECT + 1)} {b : Word}
    (h0 : d.addrs k = 0)
    (hb : b ≠ 0) (hzero : disk' b = fun _ => 0)
    (hsame : d.addrs (Fin.last NDIRECT) ≠ 0 →
      disk' (d.addrs (Fin.last NDIRECT)) = disk (d.addrs (Fin.last NDIRECT))) :
    slot disk' (d.setAddr k b) a = if a = k.val then b else slot disk d a := by
  by_cases hak : a = k.val
  · subst hak
    rw [if_pos rfl, slot_of_le (Nat.le_of_lt_succ k.isLt)]
    exact update_self ..
  rw [if_neg hak]
  by_cases hle : a ≤ NDIRECT
  · rw [slot_of_le hle, slot_of_le hle]
    exact update_of_ne (fun h => hak (congrArg Fin.val h)) _ _
  have hlt := Nat.not_le.mp hle
  by_cases hk : Fin.last NDIRECT = k
  · subst hk
    have hlast : (d.setAddr (Fin.last NDIRECT) b).addrs (Fin.last NDIRECT) = b := by
      rw [Dinode.addrs_setAddr, update_self]
    rw [slot_of_zero hlt h0]
    by_cases hgt : NDIRECT + NINDIRECT < a
    · exact slot_of_gt hgt
    · rw [slot_of_lt hlt (Nat.not_lt.mp hgt) (hlast.symm ▸ hb), hlast, hzero, loadWord_zero]
  · have hlast : (d.setAddr k b).addrs (Fin.last NDIRECT) = d.addrs (Fin.last NDIRECT) :=
      update_of_ne hk _ _
    rw [slot, slot, dif_neg hle, dif_neg hle, hlast]
    split_ifs with hif
    · rfl
    · rw [hsame fun h => hif (.inl h)]

theorem slot_storeWord {disk' : Disk} {w : Word} (hne : d.addrs (Fin.last NDIRECT) ≠ 0)
    (hl : l < NINDIRECT) (hdisk : disk' (d.addrs (Fin.last NDIRECT)) =
      storeWord (disk (d.addrs (Fin.last NDIRECT))) l w) :
    slot disk' d a = if a = NDIRECT + 1 + l then w else slot disk d a := by
  have hl' : l < 128 := hl
  by_cases hle : a ≤ NDIRECT
  · rw [if_neg (by omega), slot_of_le hle, slot_of_le hle]
  by_cases hgt : NDIRECT + NINDIRECT < a
  · rw [if_neg (by omega), slot_of_gt hgt, slot_of_gt hgt]
  rw [slot_of_lt (Nat.not_le.mp hle) (Nat.not_lt.mp hgt) hne, hdisk]
  by_cases hal : a = NDIRECT + 1 + l
  · rw [if_pos hal, hal, Nat.add_sub_cancel_left, loadWord_storeWord_self _ _ (by omega)]
  · have hidx : a - (NDIRECT + 1) < 128 ∧ a - (NDIRECT + 1) ≠ l := by
      simp only [NDIRECT, NINDIRECT] at hal hle hgt ⊢
      omega
    rw [if_neg hal, slot_of_lt (Nat.not_le.mp hle) (Nat.not_lt.mp hgt) hne,
      loadWord_storeWord_ne _ _ (by omega) hidx.2]

theorem addr_eq_zero_iff {s : State} {i : ℕ} (hlive : s.Live i) (a : ℕ) :
    s.addr (i, a) = 0 ↔ slot s.disk (s.inode i) a = 0 := by
  rw [addr_of_live hlive]
  exact ⟨fun h => BitVec.eq_of_toNat_eq h, fun h => congrArg BitVec.toNat h⟩

theorem addr_indirect_ne {s : State} {i b : ℕ} (hb : NDIRECT ≤ b) (h : s.addr (i, b) ≠ 0) :
    s.addr (i, NDIRECT) ≠ 0 := by
  have hlive := live_of_addr h
  rcases hb.eq_or_lt with rfl | hlt
  · exact h
  · intro h0
    rw [addr_eq_zero_iff hlive, slot_last] at h0
    exact h ((addr_eq_zero_iff hlive b).mpr (slot_of_zero hlt h0))

end Slot

def missing (s : State) (i : ℕ) (A : Finset ℕ) : ℕ := (A.filter fun a => s.addr (i, a) = 0).card

/-- A slot of `A` from `lo` on is empty. -/
def Misses (s : State) (i : ℕ) (A : Finset ℕ) (lo : ℕ) : Prop := ∃ b ∈ A, lo ≤ b ∧ s.addr (i, b) = 0

/-- The slots of `A` are filled. What is logged for it is said from above and from below: the bit map
for an empty slot, the indirect block for one that is it or lies behind it. -/
structure Grown (ip : Fin NINODE) (i : ℕ) (A : Finset ℕ) (s s' : State) : Prop where
  mounted : Mounted s'
  owns : Owns ∅ s'
  rest : s' = { s with disk := s'.disk, icache := s'.icache, lh := s'.lh }
  icache : ∃ addrs, s'.icache =
    Function.update s.icache ip { s.icache ip with copy := { (s.icache ip).copy with addrs := addrs } }
  dinode : ∀ j < s.sb.ninodes.toNat, s'.dinode j = s.dinode j
  old : ∀ k, s.addr k ≠ 0 → s'.addr k = s.addr k
  new : ∀ k, s.addr k = 0 → s'.addr k ≠ 0 → k.1 = i ∧ k.2 ∈ A
  full : ∀ a ∈ A, s'.addr (i, a) ≠ 0
  free : ∀ B, A ⊆ B → s'.free + missing s i B = s.free + missing s' i B
  lh : ∀ c ∈ s'.lh, c ∈ s.lh ∨ c = s.sb.bmapstart ∧ Misses s i A 0 ∨
    ∃ a ∈ A, c = BitVec.ofNat 32 (s'.addr (i, a)) ∧ (a = NDIRECT → Misses s i A NDIRECT)
  logs : ∀ c, c ∈ s.lh ∨ c = s.sb.bmapstart ∧ Misses s i A 0 ∨
    c = BitVec.ofNat 32 (s'.addr (i, NDIRECT)) ∧ Misses s i A NDIRECT → c ∈ s'.lh

/-- The reasons for which slots cannot be filled: there are fewer free blocks than empty slots,
or the log cannot take the bit map and the blocks in the slots. -/
inductive Lacks (s : State) (i : ℕ) (A : Finset ℕ) : Halt → Prop
  | blocks (h : s.free < missing s i A) : Lacks s i A (.panic "balloc: out of blocks")
  | log (f : ℕ → Word) (hf : ∀ a, s.addr (i, a) ≠ 0 → f a = BitVec.ofNat 32 (s.addr (i, a)))
      (h : s.logCap ≤ (insert s.sb.bmapstart (s.lh.toFinset ∪ A.image f)).card) :
      Lacks s i A (.panic "too big a transaction")

def State.byte (s : State) (i k : ℕ) : Byte :=
  byteAt (s.disk (BitVec.ofNat 32 (s.addr (i, blockSlot (k / BSIZE))))) (k % BSIZE)

def KeepsBytes (s s' : State) : Prop :=
  ∀ j k, s.addr (j, blockSlot (k / BSIZE)) ≠ 0 → s'.byte j k = s.byte j k

section Grown

variable {s s' s'' : State} {ip : Fin NINODE} {i : ℕ} {A B : Finset ℕ} {e : Halt}

theorem missing_mono (h : A ⊆ B) : missing s i A ≤ missing s i B :=
  Finset.card_le_card (Finset.filter_subset_filter _ h)

theorem Lacks.mono (h : Lacks s i A e) (hAB : A ⊆ B) : Lacks s i B e := by
  cases h with
  | blocks h => exact .blocks (h.trans_le (missing_mono hAB))
  | log f hf h =>
    refine .log f hf (h.trans (Finset.card_le_card (Finset.insert_subset_insert _ ?_)))
    exact Finset.union_subset_union_right (Finset.image_subset_image hAB)

theorem Grown.sb (h : Grown ip i A s s') : s'.sb = s.sb := by
  rw [h.rest]

theorem Grown.logCap (h : Grown ip i A s s') : s'.logCap = s.logCap := by
  rw [h.rest]
  rfl

theorem Grown.lacks (h : Grown ip i A s s') (hAB : A ⊆ B) (he : Lacks s' i B e) :
    Lacks s i B e := by
  cases he with
  | blocks he =>
    have hfree := h.free B hAB
    exact .blocks (by omega)
  | log f hf he =>
    rw [h.logCap, h.sb] at he
    refine .log f (fun a ha => (hf a ?_).trans ?_) (he.trans (Finset.card_le_card ?_))
    · rwa [h.old _ ha]
    · rw [h.old _ ha]
    · intro c hc
      rw [Finset.mem_insert, Finset.mem_union, List.mem_toFinset] at hc ⊢
      rcases hc with hc | hc | hc
      · exact .inl hc
      · rcases h.lh c hc with hold | hbm | ⟨a, ha, rfl, -⟩
        · exact .inr (.inl hold)
        · exact .inl hbm.1
        · refine .inr (.inr (Finset.mem_image.mpr ⟨a, hAB ha, hf a (h.full a ha)⟩))
      · exact .inr (.inr hc)

theorem Grown.missing_le (h : Grown ip i A s s') : missing s i A ≤ s.free := by
  have hfree := h.free A le_rfl
  have hfull : missing s' i A = 0 :=
    Finset.card_eq_zero.mpr (Finset.filter_eq_empty_iff.mpr h.full)
  omega

theorem Grown.refl (hm : Mounted s) (ho : Owns ∅ s) (hA : ∀ a ∈ A, s.addr (i, a) ≠ 0) :
    Grown ip i A s s where
  mounted := hm
  owns := ho
  rest := rfl
  icache := ⟨(s.icache ip).copy.addrs, (update_eq_self ip s.icache).symm⟩
  dinode _ _ := rfl
  old _ _ := rfl
  new _ h0 h1 := absurd h0 h1
  full := hA
  free _ _ := rfl
  lh _ hc := .inl hc
  logs c hc := by
    have hnone (lo : ℕ) : ¬ Misses s i A lo := fun ⟨b, hb, _, h0⟩ => hA b hb h0
    rcases hc with hc | hc | hc
    · exact hc
    · exact absurd hc.2 (hnone 0)
    · exact absurd hc.2 (hnone NDIRECT)

theorem Grown.misses_union (h : Grown ip i A s s') {lo : ℕ} :
    Misses s i (A ∪ B) lo ↔ Misses s i A lo ∨ Misses s' i B lo := by
  constructor
  · rintro ⟨b, hb, hlo, h0⟩
    by_cases h1 : s'.addr (i, b) = 0
    · rcases Finset.mem_union.mp hb with hb | hb
      · exact .inl ⟨b, hb, hlo, h0⟩
      · exact .inr ⟨b, hb, hlo, h1⟩
    · exact .inl ⟨b, (h.new _ h0 h1).2, hlo, h0⟩
  · rintro (⟨b, hb, hlo, h0⟩ | ⟨b, hb, hlo, h1⟩)
    · exact ⟨b, Finset.mem_union_left B hb, hlo, h0⟩
    · refine ⟨b, Finset.mem_union_right A hb, hlo, ?_⟩
      by_contra h0
      exact h0 ((h.old _ h0).symm.trans h1)

theorem Grown.trans (h : Grown ip i A s s') (h' : Grown ip i B s' s'') :
    Grown ip i (A ∪ B) s s'' where
  mounted := h'.mounted
  owns := h'.owns
  rest := by
    have hrest := h'.rest
    rw [h.rest] at hrest
    exact hrest
  icache := by
    obtain ⟨x, hx⟩ := h.icache
    obtain ⟨y, hy⟩ := h'.icache
    refine ⟨y, ?_⟩
    rw [hy, hx, update_self, update_idem]
  dinode j hj := (h'.dinode j (h.sb.symm ▸ hj)).trans (h.dinode j hj)
  old k hk := by
    have hmid := h.old k hk
    exact (h'.old k (hmid.symm ▸ hk)).trans hmid
  new k hk hk' := by
    by_cases hmid : s'.addr k = 0
    · obtain ⟨hi, ha⟩ := h'.new k hmid hk'
      exact ⟨hi, Finset.mem_union_right A ha⟩
    · obtain ⟨hi, ha⟩ := h.new k hk hmid
      exact ⟨hi, Finset.mem_union_left B ha⟩
  full a ha := by
    rcases Finset.mem_union.mp ha with ha | ha
    · rw [h'.old _ (h.full a ha)]
      exact h.full a ha
    · exact h'.full a ha
  free C hC := by
    have h₁ := h.free C (Finset.union_subset_left hC)
    have h₂ := h'.free C (Finset.union_subset_right hC)
    omega
  lh c hc := by
    simp only [h.misses_union]
    rcases h'.lh c hc with hmid | ⟨hbm, hmiss⟩ | ⟨a, ha, rfl, hmiss⟩
    · rcases h.lh c hmid with hold | ⟨hbm, hmiss⟩ | ⟨a, ha, rfl, hmiss⟩
      · exact .inl hold
      · exact .inr (.inl ⟨hbm, .inl hmiss⟩)
      · exact .inr (.inr ⟨a, Finset.mem_union_left B ha, by rw [h'.old _ (h.full a ha)],
          fun h => .inl (hmiss h)⟩)
    · exact .inr (.inl ⟨h.sb ▸ hbm, .inr hmiss⟩)
    · exact .inr (.inr ⟨a, Finset.mem_union_right A ha, rfl, fun h => .inr (hmiss h)⟩)
  logs c hc := by
    simp only [h.misses_union] at hc
    rcases hc with hc | ⟨hbm, hmiss | hmiss⟩ | ⟨rfl, hmiss | hmiss⟩
    · exact h'.logs c (.inl (h.logs c (.inl hc)))
    · exact h'.logs c (.inl (h.logs c (.inr (.inl ⟨hbm, hmiss⟩))))
    · exact h'.logs c (.inr (.inl ⟨h.sb ▸ hbm, hmiss⟩))
    · have hlog := h.logs _ (.inr (.inr ⟨rfl, hmiss⟩))
      obtain ⟨b, hb, hlo, -⟩ := hmiss
      rw [h'.old _ (addr_indirect_ne hlo (h.full b hb))]
      exact h'.logs _ (.inl hlog)
    · exact h'.logs _ (.inr (.inr ⟨rfl, hmiss⟩))

theorem missing_update {a b : ℕ} (haddr : ∀ k, s'.addr k = update s.addr (i, a) b k)
    (h0 : s.addr (i, a) = 0) (hb : b ≠ 0) (ha : a ∈ B) :
    missing s' i B + 1 = missing s i B := by
  have heq : (B.filter fun c => s'.addr (i, c) = 0) =
      (B.filter fun c => s.addr (i, c) = 0).erase a := by
    ext c
    rw [Finset.mem_filter, Finset.mem_erase, Finset.mem_filter, haddr]
    by_cases hc : c = a
    · rw [hc, update_self]
      exact ⟨fun h => absurd h.2 hb, fun h => absurd rfl h.1⟩
    · rw [update_of_ne fun h => hc (Prod.mk.inj h).2]
      exact ⟨fun h => ⟨hc, h⟩, fun h => h.2⟩
  rw [missing, missing, heq]
  exact Finset.card_erase_add_one (Finset.mem_filter.mpr ⟨ha, h0⟩)

theorem Grown.of_fill {a b : ℕ} (hm : Mounted s') (ho : Owns ∅ s')
    (hrest : s' = { s with disk := s'.disk, icache := s'.icache, lh := s'.lh })
    (hicache : ∃ addrs, s'.icache = update s.icache ip
      { s.icache ip with copy := { (s.icache ip).copy with addrs := addrs } })
    (hdinode : ∀ j < s.sb.ninodes.toNat, s'.dinode j = s.dinode j)
    (haddr : ∀ k, s'.addr k = update s.addr (i, a) b k) (h0 : s.addr (i, a) = 0)
    (hb : b ≠ 0) (ha : a ∈ A) (hA : ∀ c ∈ A, c ≠ a → s.addr (i, c) ≠ 0)
    (hfree : s'.free + 1 = s.free)
    (hlh : ∀ c ∈ s'.lh, c ∈ s.lh ∨ c = s.sb.bmapstart ∨
      ∃ a' ∈ A, c = BitVec.ofNat 32 (s'.addr (i, a')) ∧ (a' = NDIRECT → NDIRECT ≤ a))
    (hlogs : ∀ c, c ∈ s.lh ∨ c = s.sb.bmapstart ∨
      c = BitVec.ofNat 32 (s'.addr (i, NDIRECT)) ∧ NDIRECT ≤ a → c ∈ s'.lh) :
    Grown ip i A s s' where
  mounted := hm
  owns := ho
  rest := hrest
  icache := hicache
  dinode := hdinode
  old k hk := by
    rw [haddr, update_of_ne]
    rintro rfl
    exact hk h0
  new k hk hk' := by
    by_cases hka : k = (i, a)
    · rw [hka]
      exact ⟨rfl, ha⟩
    · rw [haddr, update_of_ne hka] at hk'
      exact absurd hk hk'
  full c hc := by
    rw [haddr]
    by_cases hca : c = a
    · rwa [hca, update_self]
    · rw [update_of_ne fun h => hca (Prod.mk.inj h).2]
      exact hA c hc hca
  free C hC := by
    have hmiss := missing_update (B := C) haddr h0 hb (hC ha)
    omega
  lh c hc := by
    rcases hlh c hc with hold | hbm | ⟨a', ha', heq, hle⟩
    · exact .inl hold
    · exact .inr (.inl ⟨hbm, a, ha, Nat.zero_le a, h0⟩)
    · exact .inr (.inr ⟨a', ha', heq, fun h => ⟨a, ha, hle h, h0⟩⟩)
  logs c hc := by
    refine hlogs c (hc.imp_right (Or.imp And.left (And.imp_right ?_)))
    rintro ⟨b, hbA, hlo, hb0⟩
    by_cases hba : b = a
    · exact hba ▸ hlo
    · exact absurd hb0 (hA b hbA hba)

end Grown

section Fill

variable {s : State} {ip : Fin NINODE} {i c : ℕ}

theorem Owns.fill {s' : State} {a : ℕ} (h : Owns {c} s) (hsb : s'.sb = s.sb)
    (hdata : s.sb.dataStart ≤ s.sb.size.toNat) (hbit : ∀ b < s.sb.size.toNat, s'.bit b = s.bit b)
    (h0 : s.addr (i, a) = 0) (haddr : ∀ k, s'.addr k = update s.addr (i, a) c k) : Owns ∅ s' := by
  refine ⟨?_, fun b hb => ?_⟩
  · rw [hsb]
    have howned := h.owned
    rw [← LawfulSingleton.insert_empty_eq c] at howned
    exact (howned.fill (Set.notMem_empty c) h0).congr haddr fun b _ hb => by rw [hbit b hb]
  · rw [hsb] at hb
    rw [hbit b (hb.trans_le hdata)]
    exact h.meta_used b hb

theorem Owns.take_loose (hm : Mounted s) (ho : Owns ∅ s) (hc : c < s.sb.size.toNat)
    (hbit : s.bit c = false) : Owns {c} (s.take c) := by
  rw [← LawfulSingleton.insert_empty_eq c]
  exact ho.take hm hc hbit

theorem disk_take_self : (s.take c).disk (BitVec.ofNat 32 c) = fun _ => 0 := by
  rw [State.take, disk_log, update_self]

theorem Owns.disk_take_addr (hm : Mounted s) (ho : Owns ∅ s) (hc : c < s.sb.size.toNat)
    (hbit : s.bit c = false) (hx : s.addr x ≠ 0) :
    (s.take c).disk (BitVec.ofNat 32 (s.addr x)) = s.disk (BitVec.ofNat 32 (s.addr x)) := by
  obtain ⟨hlo, hhi⟩ := ho.owned.range x hx
  have hne : BitVec.ofNat 32 (s.addr x) ≠ BitVec.ofNat 32 c := by
    intro heq
    have hnat := congrArg BitVec.toNat heq
    rw [ho.toNat_addr hm hx, toNat_ofNat_of_lt hm.layout hc] at hnat
    exact ho.owned.addr_ne (by simp [hbit]) (hnat ▸ hx) x hnat
  rw [State.take, disk_log, update_of_ne hne, disk_log,
    update_of_ne (ofNat_ne_of_lt hm.layout hlo hhi s.sb.bmapstart_lt)]

theorem ofNat_addr (hlive : s.Live i) (a : ℕ) :
    BitVec.ofNat 32 (s.addr (i, a)) = slot s.disk (s.inode i) a := by
  rw [addr_of_live hlive, BitVec.ofNat_toNat, BitVec.setWidth_eq]

theorem addrs_last (hlive : s.Live i) :
    (s.inode i).addrs (Fin.last NDIRECT) = BitVec.ofNat 32 (s.addr (i, NDIRECT)) := by
  rw [ofNat_addr hlive, slot_last]

theorem addrs_last_ne (hlive : s.Live i) (hx : s.addr (i, NDIRECT) ≠ 0) :
    (s.inode i).addrs (Fin.last NDIRECT) ≠ 0 := by
  rw [← slot_last s.disk]
  exact mt (addr_eq_zero_iff hlive NDIRECT).mpr hx

theorem ofNat_ne_zero (hm : Mounted s) (hlo : s.sb.dataStart ≤ c) (hc : c < s.sb.size.toNat) :
    BitVec.ofNat 32 c ≠ 0 :=
  ofNat_ne_of_lt hm.layout hlo hc (Nat.lt_of_le_of_lt (Nat.zero_le _) s.sb.bmapstart_lt)

theorem addr_take_putCopy (hm : Mounted s) (ho : Owns ∅ s) (hip : s.Holds ip i) (hlive : s.Live i)
    (hc : c < s.sb.size.toNat) (hbit : s.bit c = false) {k : Fin (NDIRECT + 1)}
    (h0 : (s.icache ip).copy.addrs k = 0) (x : ℕ × ℕ) :
    ((s.take c).putCopy ip ((s.icache ip).copy.setAddr k (BitVec.ofNat 32 c))).addr x =
      update s.addr (i, k.val) c x := by
  have hlo := ho.dataStart_le hbit
  have hm' := hm.take hlo hc
  have hinode := inode_of_holds hm hip
  have htype : ((s.icache ip).copy.setAddr k (BitVec.ofNat 32 c)).type ≠ 0 := hinode ▸ hlive.2.2
  obtain ⟨j, a⟩ := x
  by_cases hj : j = i
  · subst hj
    rw [addr_putCopy_self hm' hip htype,
      slot_setAddr s.disk h0 (ofNat_ne_zero hm hlo hc) disk_take_self]
    · by_cases ha : a = k.val
      · rw [if_pos ha, ha, update_self, toNat_ofNat_of_lt hm.layout hc]
      · rw [if_neg ha, update_of_ne fun h => ha (Prod.mk.inj h).2, addr_of_live hlive, hinode]
    · intro hne
      have hlast := ofNat_addr hlive NDIRECT
      rw [slot_last, hinode] at hlast
      have hne' : s.addr (j, NDIRECT) ≠ 0 := by
        rwa [ne_eq, addr_eq_zero_iff hlive, slot_last, hinode]
      exact hlast ▸ ho.disk_take_addr hm hc hbit hne'
  · rw [addr_putCopy_of_ne hm' hip hj, ho.addr_take hm hc hbit,
      update_of_ne fun h => hj (Prod.mk.inj h).1]

theorem mem_lh_take {w : Word} :
    w ∈ (s.take c).lh ↔ w = BitVec.ofNat 32 c ∨ w = s.sb.bmapstart ∨ w ∈ s.lh := by
  rw [State.take, mem_lh_log, mem_lh_log]

theorem dinode_take (hm : Mounted s) (hlo : s.sb.dataStart ≤ c) (hc : c < s.sb.size.toNat) {j : ℕ}
    (hj : j < s.sb.ninodes.toNat) : (s.take c).dinode j = s.dinode j := by
  rw [State.take, dinode_log (s := s.log _ _) (iblock_ne_ofNat hm hlo hc hj),
    dinode_log (hm.layout.iblock_ne_bmapstart hj)]

theorem grown_direct (hm : Mounted s) (ho : Owns ∅ s) (hip : s.Holds ip i) (hlive : s.Live i)
    (hc : c < s.sb.size.toNat) (hbit : s.bit c = false) {k : Fin (NDIRECT + 1)}
    (h0 : (s.icache ip).copy.addrs k = 0) :
    Grown ip i {k.val} s
      ((s.take c).putCopy ip ((s.icache ip).copy.setAddr k (BitVec.ofNat 32 c))) := by
  have hlo := ho.dataStart_le hbit
  have haddr := addr_take_putCopy hm ho hip hlive hc hbit h0
  have hzero : s.addr (i, k.val) = 0 := by
    rw [addr_eq_zero_iff hlive, slot_of_le (Nat.le_of_lt_succ k.isLt), inode_of_holds hm hip]
    exact h0
  have htake := ho.addr_take hm hc hbit
  refine .of_fill (a := k.val) (b := c) (hm.take hlo hc).putCopy ?_ rfl ⟨_, rfl⟩ (fun j hj => ?_)
    haddr hzero (fun h => ?_) (Finset.mem_singleton_self _) (fun b hb hne => ?_) ?_
    (fun w hw => ?_) fun w hw => mem_lh_take.mpr ?_
  · refine (ho.take_loose hm hc hbit).fill (i := i) (a := k.val) rfl hm.layout.data (fun b _ => rfl)
      ((htake _).trans hzero) fun x => ?_
    rw [haddr x, funext htake]
  · exact dinode_take hm hlo hc hj
  · exact Nat.ne_of_gt (ho.owned.pos.trans_le hlo) h
  · exact absurd (Finset.mem_singleton.mp hb) hne
  · rw [free_putCopy]
    exact free_take hm.layout hlo hc hbit
  · rcases mem_lh_take.mp hw with hnew | hbm | hold
    · refine .inr (.inr ⟨k.val, Finset.mem_singleton_self _, ?_, fun h => h.ge⟩)
      rw [hnew, haddr, update_self]
    · exact .inr (.inl hbm)
    · exact .inl hold
  · rcases hw with hold | hbm | ⟨hnew, hle⟩
    · exact .inr (.inr hold)
    · exact .inr (.inl hbm)
    · have hk : k.val = NDIRECT := Nat.le_antisymm (Nat.le_of_lt_succ k.isLt) hle
      rw [haddr, ← show (i, k.val) = (i, NDIRECT) by rw [hk], update_self] at hnew
      exact .inl hnew

variable {loose : Set ℕ}

theorem Owns.iblock_ne_addr (hm : Mounted s) (ho : Owns loose s) (hx : s.addr x ≠ 0)
    {j : ℕ} (hj : j < s.sb.ninodes.toNat) : s.sb.iblock j ≠ BitVec.ofNat 32 (s.addr x) := by
  obtain ⟨hlo, hhi⟩ := ho.owned.range x hx
  exact iblock_ne_ofNat hm hlo hhi hj

theorem Owns.addr_inj (hm : Mounted s) (ho : Owns loose s) {y : ℕ × ℕ}
    (hx : s.addr x ≠ 0) (hy : s.addr y ≠ 0)
    (heq : BitVec.ofNat 32 (s.addr x) = BitVec.ofNat 32 (s.addr y)) : x = y := by
  have hnat := congrArg BitVec.toNat heq
  rw [ho.toNat_addr hm hx, ho.toNat_addr hm hy] at hnat
  exact ho.owned.inj x y hnat hx

theorem addr_log_indirect (hm : Mounted s) (ho : Owns loose s) (hlive : s.Live i)
    (hx : s.addr (i, NDIRECT) ≠ 0) (hl : l < NINDIRECT) (w : Word) (y : ℕ × ℕ) :
    (s.log (BitVec.ofNat 32 (s.addr (i, NDIRECT)))
      (storeWord (s.disk (BitVec.ofNat 32 (s.addr (i, NDIRECT)))) l w)).addr y =
      update s.addr (i, NDIRECT + 1 + l) w.toNat y := by
  obtain ⟨j, a⟩ := y
  set x := BitVec.ofNat 32 (s.addr (i, NDIRECT)) with hxdef
  set t := s.log x (storeWord (s.disk x) l w) with ht
  have hinode {j : ℕ} (hj : j < s.sb.ninodes.toNat) : t.inode j = s.inode j :=
    inode_log (ho.iblock_ne_addr hm hx hj)
  have hsb : t.sb = s.sb := rfl
  have hlast : (s.inode i).addrs (Fin.last NDIRECT) = x := addrs_last hlive
  have hx0 := addrs_last_ne hlive hx
  by_cases hlj : s.Live j
  swap
  · have hne : ((j, a) : ℕ × ℕ) ≠ (i, NDIRECT + 1 + l) := fun h => hlj ((Prod.mk.inj h).1 ▸ hlive)
    have hnot : ¬ t.Live j := fun h => hlj ((live_congr hsb (hinode (hsb ▸ h.2.1))).mp h)
    rw [update_of_ne hne, State.addr, State.addr, if_neg hlj, if_neg hnot]
  have hlj' : t.Live j := (live_congr hsb (hinode hlj.2.1)).mpr hlj
  rw [addr_of_live hlj', hinode hlj.2.1]
  by_cases hj : j = i
  · subst hj
    have hdisk : t.disk ((s.inode j).addrs (Fin.last NDIRECT)) =
        storeWord (s.disk ((s.inode j).addrs (Fin.last NDIRECT))) l w := by
      rw [hlast]
      exact update_self ..
    rw [slot_storeWord hx0 hl hdisk]
    by_cases hal : a = NDIRECT + 1 + l
    · rw [if_pos hal, hal, update_self]
    · rw [if_neg hal, update_of_ne fun h => hal (Prod.mk.inj h).2, addr_of_live hlj]
  · rw [update_of_ne fun h => hj (Prod.mk.inj h).1, addr_of_live hlj]
    refine congrArg BitVec.toNat (slot_congr fun hne => update_of_ne (fun heq => hj ?_) _ _)
    have hxj := ofNat_addr hlj NDIRECT
    rw [slot_last] at hxj
    have hj0 : s.addr (j, NDIRECT) ≠ 0 := by rwa [ne_eq, addr_eq_zero_iff hlj, slot_last]
    exact (Prod.mk.inj (ho.addr_inj hm hj0 hx (hxj.trans heq))).1

theorem addr_take_log (hm : Mounted s) (ho : Owns ∅ s) (hx : s.addr (i, NDIRECT) ≠ 0)
    (hc : c < s.sb.size.toNat) (hbit : s.bit c = false) (hl : l < NINDIRECT) (y : ℕ × ℕ) :
    ((s.take c).log (BitVec.ofNat 32 (s.addr (i, NDIRECT)))
      (storeWord (s.disk (BitVec.ofNat 32 (s.addr (i, NDIRECT)))) l (BitVec.ofNat 32 c))).addr y =
      update s.addr (i, NDIRECT + 1 + l) c y := by
  have htake := ho.addr_take hm hc hbit
  have hlive : (s.take c).Live i := live_of_addr (k := (i, NDIRECT)) (by rwa [htake])
  have haddr := addr_log_indirect (hm.take (ho.dataStart_le hbit) hc) (ho.take hm hc hbit) hlive
    (by rwa [htake]) hl (BitVec.ofNat 32 c) y
  rwa [htake, ho.disk_take_addr hm hc hbit hx, toNat_ofNat_of_lt hm.layout hc,
    funext htake] at haddr

theorem grown_entry (ip : Fin NINODE) (hm : Mounted s) (ho : Owns ∅ s)
    (hx : s.addr (i, NDIRECT) ≠ 0) (hc : c < s.sb.size.toNat) (hbit : s.bit c = false)
    (hl : l < NINDIRECT) (h0 : s.addr (i, NDIRECT + 1 + l) = 0) :
    Grown ip i {NDIRECT, NDIRECT + 1 + l} s
      ((s.take c).log (BitVec.ofNat 32 (s.addr (i, NDIRECT)))
        (storeWord (s.disk (BitVec.ofNat 32 (s.addr (i, NDIRECT)))) l (BitVec.ofNat 32 c))) := by
  have hlo := ho.dataStart_le hbit
  have hm' := hm.take hlo hc
  have htake := ho.addr_take hm hc hbit
  have haddr := addr_take_log hm ho hx hc hbit hl
  have hind := haddr (i, NDIRECT)
  rw [update_of_ne fun h => by have := (Prod.mk.inj h).2; omega] at hind
  obtain ⟨hxlo, hxhi⟩ := ho.owned.range _ hx
  have hxne {w : Word} (hw : w.toNat < s.sb.dataStart) :
      BitVec.ofNat 32 (s.addr (i, NDIRECT)) ≠ w := ofNat_ne_of_lt hm.layout hxlo hxhi hw
  have hbit' (b : ℕ) (hb : b < s.sb.size.toNat) (data : DiskBlock) :
      ((s.take c).log (BitVec.ofNat 32 (s.addr (i, NDIRECT))) data).bit b = (s.take c).bit b := by
    refine bit_log ?_
    rw [show (s.take c).sb = s.sb from rfl, hm.layout.bblock_eq hb]
    exact (hxne s.sb.bmapstart_lt).symm
  refine .of_fill (a := NDIRECT + 1 + l) (b := c) (hm'.log ?_) ?_ rfl
    ⟨(s.icache ip).copy.addrs, (update_eq_self ip s.icache).symm⟩ (fun j hj => ?_) haddr h0
    (Nat.ne_of_gt (ho.owned.pos.trans_le hlo)) (by simp) (fun b hb hne => ?_) ?_ (fun w hw => ?_)
    fun w hw => mem_lh_log.mpr (hw.elim (fun hold => ?_) fun hw => ?_)
  · exact hxne (hm.layout.one_lt_bmapstart.trans s.sb.bmapstart_lt)
  · refine (ho.take_loose hm hc hbit).fill (i := i) (a := NDIRECT + 1 + l) rfl hm.layout.data
      (fun b hb => hbit' b hb _) ((htake _).trans h0) fun y => ?_
    rw [haddr, funext htake]
  · rw [dinode_log (s := s.take c) (ho.iblock_ne_addr hm hx hj), dinode_take hm hlo hc hj]
  · rcases Finset.mem_insert.mp hb with rfl | hb
    · exact hx
    · exact absurd (Finset.mem_singleton.mp hb) hne
  · rw [← free_take hm.layout hlo hc hbit]
    exact congrArg (· + 1) (free_congr rfl fun b hb => hbit' b hb _)
  · rcases mem_lh_log.mp hw with rfl | hw
    · exact .inr (.inr ⟨NDIRECT, by simp, by rw [hind], fun _ => by omega⟩)
    · rcases mem_lh_take.mp hw with rfl | hbm | hold
      · refine .inr (.inr ⟨NDIRECT + 1 + l, by simp, ?_, fun _ => by omega⟩)
        rw [haddr, update_self]
      · exact .inr (.inl hbm)
      · exact .inl hold
  · exact .inr (mem_lh_take.mpr (.inr (.inr hold)))
  · rcases hw with hbm | ⟨hnew, -⟩
    · exact .inr (mem_lh_take.mpr (.inr (.inl hbm)))
    · rw [hind] at hnew
      exact .inl hnew

end Fill

section Bmap

variable {s s' : State} {ip : Fin NINODE} {i bn : ℕ} {A : Finset ℕ}

theorem blockSlot_ne (bn : ℕ) : blockSlot bn ≠ NDIRECT := by
  rw [blockSlot]
  split_ifs with h
  · exact h.ne
  · omega

theorem keepsBytes_of (h : ∀ y : ℕ × ℕ, y.2 ≠ NDIRECT → s.addr y ≠ 0 → s'.addr y = s.addr y ∧
      s'.disk (BitVec.ofNat 32 (s.addr y)) = s.disk (BitVec.ofNat 32 (s.addr y))) :
    KeepsBytes s s' := by
  intro j k hk
  obtain ⟨haddr, hdisk⟩ := h (j, blockSlot (k / BSIZE)) (blockSlot_ne _) hk
  rw [State.byte, State.byte, haddr, hdisk]

theorem Grown.holds (h : Grown ip i A s s') {j : ℕ} : s'.Holds k j ↔ s.Holds k j := by
  obtain ⟨addrs, hcache⟩ := h.icache
  rw [State.Holds, State.Holds, hcache]
  by_cases hk : k = ip
  · rw [hk, update_self]
  · rw [update_of_ne hk]

theorem Grown.live (h : Grown ip i A s s') (hm : Mounted s) (hip : s.Holds ip i)
    (hlive : s.Live i) : s'.Live i := by
  obtain ⟨addrs, hcache⟩ := h.icache
  refine ⟨hlive.1, h.sb ▸ hlive.2.1, ?_⟩
  rw [inode_of_holds h.mounted (h.holds.mpr hip), hcache, update_self]
  exact inode_of_holds hm hip ▸ hlive.2.2

theorem Grown.outstanding (h : Grown ip i A s s') : s'.outstanding = s.outstanding := by
  rw [h.rest]

theorem lacks_of_balloc {e : Halt} {a : ℕ} (ha : a ∈ A) (h0 : s.addr (i, a) = 0)
    (he : e = .panic "balloc: out of blocks" ∧ s.free = 0 ∨ e = .panic "too big a transaction" ∧
      s.logCap ≤ (insert s.sb.bmapstart s.lh.toFinset).card) : Lacks s i A e := by
  rcases he with ⟨rfl, hfree⟩ | ⟨rfl, hcap⟩
  · refine .blocks (hfree.symm ▸ Finset.card_pos.mpr ⟨a, Finset.mem_filter.mpr ⟨ha, h0⟩⟩)
  · refine .log (fun a => BitVec.ofNat 32 (s.addr (i, a))) (fun _ _ => rfl) (hcap.trans ?_)
    exact Finset.card_le_card (Finset.insert_subset_insert _ Finset.subset_union_left)

theorem bmapDirect_ends (hm : Mounted s) (ho : Owns ∅ s) (hip : s.Holds ip i) (hlive : s.Live i)
    (hout : 1 ≤ s.outstanding) (k : Fin (NDIRECT + 1)) :
    Ends (bmapDirect ip k) s
      (fun w s' => Grown ip i {k.val} s s' ∧ KeepsBytes s s' ∧
        w = BitVec.ofNat 32 (s'.addr (i, k.val)))
      (fun e _ => Lacks s i {k.val} e) := by
  have hslot : slot s.disk (s.inode i) k.val = (s.icache ip).copy.addrs k := by
    rw [slot_of_le (Nat.le_of_lt_succ k.isLt), inode_of_holds hm hip]
  refine ends_get_bind ?_
  by_cases h0 : (s.icache ip).copy.addrs k = 0
  · rw [if_pos h0]
    have haddr0 : s.addr (i, k.val) = 0 := by rw [addr_eq_zero_iff hlive, hslot, h0]
    refine (balloc_ends hm hout).bind_imp
      (fun e _ hE => lacks_of_balloc (Finset.mem_singleton_self _) haddr0 hE) ?_
    rintro _ _ ⟨c, hc, hbit, rfl, rfl⟩
    have hgrown := grown_direct hm ho hip hlive hc hbit h0
    have haddr := addr_take_putCopy hm ho hip hlive hc hbit h0
    refine Ends.bind_of_eq (setAddr_run k _) ?_
    refine ⟨hgrown, keepsBytes_of fun y _ hy => ⟨hgrown.old y hy, ?_⟩, ?_⟩
    · exact ho.disk_take_addr hm hc hbit hy
    · rw [show (s.take c).icache = s.icache from rfl, haddr, update_self]
  · rw [if_neg h0]
    have haddr : s.addr (i, k.val) ≠ 0 := by rwa [ne_eq, addr_eq_zero_iff hlive, hslot]
    refine ⟨.refl hm ho fun a ha => Finset.mem_singleton.mp ha ▸ haddr, fun _ _ _ => rfl, ?_⟩
    rw [ofNat_addr hlive, hslot]

def needed (bn : ℕ) : Finset ℕ := if bn < NDIRECT then {bn} else {NDIRECT, bn + 1}

theorem blockSlot_mem_needed (bn : ℕ) : blockSlot bn ∈ needed bn := by
  rw [blockSlot, needed]
  split_ifs <;> simp

theorem bmapEntry_ends (ip : Fin NINODE) (hm : Mounted s) (ho : Owns ∅ s) (hlive : s.Live i)
    (hout : 1 ≤ s.outstanding) (hx : s.addr (i, NDIRECT) ≠ 0) (hl : l < NINDIRECT) :
    Ends (bmapEntry (BitVec.ofNat 32 (s.addr (i, NDIRECT))) l) s
      (fun w s' => Grown ip i {NDIRECT, NDIRECT + 1 + l} s s' ∧ KeepsBytes s s' ∧
        w = BitVec.ofNat 32 (s'.addr (i, NDIRECT + 1 + l)))
      (fun e _ => Lacks s i {NDIRECT, NDIRECT + 1 + l} e) := by
  have hl' : l < 128 := hl
  set x := BitVec.ofNat 32 (s.addr (i, NDIRECT)) with hxdef
  have hread : x.toNat < FSSIZE := by
    rw [hxdef, ho.toNat_addr hm hx]
    exact (ho.owned.range _ hx).2.trans_le hm.layout.disk
  have hlast : (s.inode i).addrs (Fin.last NDIRECT) = x := addrs_last hlive
  have hx0 := addrs_last_ne hlive hx
  have hslot : slot s.disk (s.inode i) (NDIRECT + 1 + l) = loadWord (s.disk x) l := by
    rw [slot_of_lt (by omega) (by simp only [NDIRECT, NINDIRECT]; omega) hx0, hlast,
      Nat.add_sub_cancel_left]
  refine Ends.bind_of_eq (bread_run hread) ?_
  by_cases h0 : loadWord (s.disk x) l = 0
  · have haddr0 : s.addr (i, NDIRECT + 1 + l) = 0 := by rw [addr_eq_zero_iff hlive, hslot, h0]
    simp only [h0, if_true]
    refine (balloc_ends hm hout).bind_imp
      (fun e _ hE =>
        lacks_of_balloc (Finset.mem_insert_of_mem (Finset.mem_singleton_self _)) haddr0 hE) ?_
    rintro _ _ ⟨c, hc, hbit, rfl, rfl⟩
    have hm' := hm.take (ho.dataStart_le hbit) hc
    have hgrown := grown_entry ip hm ho hx hc hbit hl haddr0
    refine (logWrite_ends (s := s.take c) hout).bind_imp (fun e _ hE => ?_) ?_
    · obtain ⟨rfl, hcap⟩ := hE
      let f := update (fun a => BitVec.ofNat 32 (s.addr (i, a))) (NDIRECT + 1 + l)
        (BitVec.ofNat 32 c)
      refine .log f (fun a ha => update_of_ne ?_ _ _) ?_
      · rintro rfl
        exact ha haddr0
      · rw [hm'.length_lh] at hcap
        refine hcap.trans (Finset.card_le_card fun w hw => ?_)
        rw [Finset.mem_insert, Finset.mem_union, List.mem_toFinset]
        rcases mem_lh_take.mp (List.mem_toFinset.mp hw) with rfl | hbm | hold
        · exact .inr (.inr (Finset.mem_image.mpr ⟨_, by simp, update_self ..⟩))
        · exact .inl hbm
        · exact .inr (.inl hold)
    · rintro _ _ rfl
      refine ⟨hgrown, keepsBytes_of fun y hy12 hy => ⟨hgrown.old y hy, ?_⟩, ?_⟩
      · have hne : BitVec.ofNat 32 (s.addr y) ≠ x := fun heq =>
          hy12 (congrArg Prod.snd (ho.addr_inj hm hy hx heq))
        rw [disk_log, update_of_ne hne]
        exact ho.disk_take_addr hm hc hbit hy
      · rw [addr_take_log hm ho hx hc hbit hl, update_self]
  · have haddr : s.addr (i, NDIRECT + 1 + l) ≠ 0 := by rwa [ne_eq, addr_eq_zero_iff hlive, hslot]
    simp only [h0, if_false]
    refine ⟨.refl hm ho fun a ha => ?_, fun _ _ _ => rfl, ?_⟩
    · rcases Finset.mem_insert.mp ha with rfl | ha
      · exact hx
      · exact Finset.mem_singleton.mp ha ▸ haddr
    · rw [ofNat_addr hlive, hslot]

theorem bmap_ends (hm : Mounted s) (ho : Owns ∅ s) (hip : s.Holds ip i) (hlive : s.Live i)
    (hout : 1 ≤ s.outstanding) (hbn : bn < MAXFILE) :
    Ends (bmap ip bn) s
      (fun w s' => Grown ip i (needed bn) s s' ∧ KeepsBytes s s' ∧
        w = BitVec.ofNat 32 (s'.addr (i, blockSlot bn)))
      (fun e _ => Lacks s i (needed bn) e) := by
  rw [bmap]
  by_cases hdirect : bn < NDIRECT
  · rw [dif_pos hdirect, needed, blockSlot, if_pos hdirect, if_pos hdirect]
    exact bmapDirect_ends hm ho hip hlive hout ⟨bn, Nat.lt_succ_of_lt hdirect⟩
  · have hl : bn - NDIRECT < NINDIRECT := by
      simp only [NDIRECT, NINDIRECT, MAXFILE] at hdirect hbn ⊢
      omega
    have hslot : NDIRECT + 1 + (bn - NDIRECT) = bn + 1 := by omega
    rw [dif_neg hdirect, if_pos hl, needed, blockSlot, if_neg hdirect, if_neg hdirect]
    have hsub : ({(Fin.last NDIRECT).val} : Finset ℕ) ⊆ {NDIRECT, bn + 1} := by simp
    refine (bmapDirect_ends hm ho hip hlive hout (Fin.last NDIRECT)).bind_imp
      (fun e _ hE => hE.mono hsub) ?_
    rintro _ s₁ ⟨hgrown, hbytes, rfl⟩
    have hx : s₁.addr (i, NDIRECT) ≠ 0 := hgrown.full _ (Finset.mem_singleton_self _)
    have hentry := bmapEntry_ends ip hgrown.mounted hgrown.owns
      (hgrown.live hm hip hlive) (hgrown.outstanding.symm ▸ hout) hx hl
    rw [hslot] at hentry
    refine hentry.mono ?_ fun e _ hE => hgrown.lacks hsub hE
    rintro w s₂ ⟨hgrown₂, hbytes₂, rfl⟩
    refine ⟨?_, fun j k hk => ?_, rfl⟩
    · have htrans := hgrown.trans hgrown₂
      rwa [Finset.union_eq_right.mpr hsub] at htrans
    · exact (hbytes₂ j k (by rwa [hgrown.old _ hk])).trans (hbytes j k hk)

theorem bmapDirect_run {k : Fin (NDIRECT + 1)} (h : (s.icache ip).copy.addrs k ≠ 0) :
    (bmapDirect ip k).run s = .ok ((s.icache ip).copy.addrs k) s := by
  rw [bmapDirect, get_bind, if_neg h]
  rfl

theorem bmap_run (hm : Mounted s) (ho : Owns ∅ s) (hip : s.Holds ip i) (hbn : bn < MAXFILE)
    (h : s.addr (i, blockSlot bn) ≠ 0) :
    (bmap ip bn).run s = .ok (BitVec.ofNat 32 (s.addr (i, blockSlot bn))) s := by
  have hlive := live_of_addr h
  have hinode := inode_of_holds hm hip
  have hne : slot s.disk (s.inode i) (blockSlot bn) ≠ 0 := mt (addr_eq_zero_iff hlive _).mpr h
  rw [ofNat_addr hlive, bmap]
  by_cases hdirect : bn < NDIRECT
  · rw [blockSlot, if_pos hdirect, slot_of_le hdirect.le, hinode] at hne ⊢
    rw [dif_pos hdirect]
    exact bmapDirect_run hne
  · have hl : bn - NDIRECT < NINDIRECT := by
      simp only [NDIRECT, NINDIRECT, MAXFILE] at hdirect hbn ⊢
      omega
    have hlt : NDIRECT < bn + 1 := by omega
    have hlast : (s.icache ip).copy.addrs (Fin.last NDIRECT) ≠ 0 := by
      intro h0
      rw [blockSlot, if_neg hdirect, hinode, slot_of_zero hlt h0] at hne
      exact hne rfl
    have hx : s.addr (i, NDIRECT) ≠ 0 := by
      rwa [ne_eq, addr_eq_zero_iff hlive, slot_last, hinode]
    have hread : ((s.icache ip).copy.addrs (Fin.last NDIRECT)).toNat < FSSIZE := by
      rw [← hinode, ← slot_last s.disk, ← addr_of_live hlive]
      exact (ho.owned.range _ hx).2.trans_le hm.layout.disk
    rw [blockSlot, if_neg hdirect, hinode, slot_of_lt hlt (by omega) hlast,
      Nat.add_sub_add_right] at hne ⊢
    rw [dif_neg hdirect, if_pos hl, bind_ok (bmapDirect_run hlast), bmapEntry,
      bind_ok (bread_run hread), if_neg hne]
    rfl

end Bmap

def State.store (s : State) (ip : Fin NINODE) : State :=
  s.log (s.sb.iblock (s.icache ip).inum) (setDinode (s.disk (s.sb.iblock (s.icache ip).inum))
    ((s.icache ip).inum % IPB) (s.icache ip).copy)

section Store

variable {s : State} {ip : Fin NINODE} {i j : ℕ} {loose : Set ℕ}

theorem iupdate_ends (hm : Mounted s) (href : 0 < (s.icache ip).ref) (hout : 1 ≤ s.outstanding) :
    Ends (iupdate ip) s (fun _ s' => s' = s.store ip)
      (fun e _ => e = .panic "too big a transaction" ∧ s.logCap ≤ s.lh.length) := by
  have hblock := hm.layout.iblock_lt (hm.range ip href).2
  refine ends_get_bind (Ends.bind_of_eq (bread_run ?_) (logWrite_ends hout))
  exact hblock.2.trans hm.layout.bmapstart_lt_disk

theorem dinode_store_self (s : State) (ip : Fin NINODE) :
    (s.store ip).dinode (s.icache ip).inum = (s.icache ip).copy := by
  rw [State.dinode, State.store, sb_log, disk_log, update_self]
  exact getDinode_setDinode_self _ _ (Nat.mod_lt _ (by decide))

section Mounted

variable (hm : Mounted s)
include hm

theorem dinode_store_of_ne (href : 0 < (s.icache ip).ref)
    (hj : j < s.sb.ninodes.toNat) (hne : j ≠ (s.icache ip).inum) :
    (s.store ip).dinode j = s.dinode j := by
  have hi := (hm.range ip href).2
  by_cases hblock : s.sb.iblock j = s.sb.iblock (s.icache ip).inum
  · have hslot : j % IPB ≠ (s.icache ip).inum % IPB :=
      fun h => hne (hm.layout.iblock_inj hj hi hblock h)
    rw [State.dinode, State.dinode, State.store, sb_log, disk_log, hblock, update_self]
    exact getDinode_setDinode_ne _ _ (Nat.mod_lt _ (by decide)) hslot
  · exact dinode_log hblock

theorem Mounted.store (href : 0 < (s.icache ip).ref) : Mounted (s.store ip) :=
  hm.log (hm.layout.iblock_ne_one (hm.range ip href).2)

theorem inode_store (hip : s.Holds ip i) (hj : j < s.sb.ninodes.toNat) :
    (s.store ip).inode j = s.inode j := by
  by_cases hji : j = i
  · subst hji
    have hip' : (s.store ip).Holds ip j := hip
    rw [inode_of_holds hm hip, inode_of_holds (hm.store hip.1) hip']
    rfl
  · exact inode_congr rfl (dinode_store_of_ne hm hip.1 hj fun h => hji (h.trans hip.2.2))

theorem Owns.disk_store_addr (ho : Owns loose s) (href : 0 < (s.icache ip).ref)
    (hx : s.addr x ≠ 0) :
    (s.store ip).disk (BitVec.ofNat 32 (s.addr x)) = s.disk (BitVec.ofNat 32 (s.addr x)) :=
  update_of_ne (ho.iblock_ne_addr hm hx (hm.range ip href).2).symm _ _

theorem Owns.addr_store (ho : Owns loose s) (hip : s.Holds ip i) (x : ℕ × ℕ) :
    (s.store ip).addr x = s.addr x := by
  refine addr_congr ?_ (fun _ hj => inode_store hm hip hj)
    (fun _ hj => ho.disk_store_addr hm hip.1 hj) x
  rfl

theorem bit_store (href : 0 < (s.icache ip).ref) {b : ℕ}
    (hb : b < s.sb.size.toNat) : (s.store ip).bit b = s.bit b := by
  refine bit_log ?_
  rw [hm.layout.bblock_eq hb]
  exact (hm.layout.iblock_ne_bmapstart (hm.range ip href).2).symm

theorem Owns.store (ho : Owns loose s) (hip : s.Holds ip i) : Owns loose (s.store ip) :=
  ⟨ho.owned.congr (ho.addr_store hm hip) fun _ _ hb => by rw [bit_store hm hip.1 hb],
    fun b hb => by
      rw [bit_store hm hip.1 (lt_of_lt_of_le hb hm.layout.data)]
      exact ho.meta_used b hb⟩

theorem keepsBytes_store (ho : Owns loose s) (hip : s.Holds ip i) : KeepsBytes s (s.store ip) :=
  keepsBytes_of fun x _ hx => ⟨ho.addr_store hm hip x, ho.disk_store_addr hm hip.1 hx⟩

theorem addr_putCopy_of_addrs (hip : s.Holds ip i) (hlive : s.Live i) {d : Dinode}
    (htype : d.type ≠ 0) (haddrs : d.addrs = (s.icache ip).copy.addrs) (x : ℕ × ℕ) :
    (s.putCopy ip d).addr x = s.addr x := by
  obtain ⟨j, a⟩ := x
  by_cases hj : j = i
  · subst hj
    rw [addr_putCopy_self hm hip htype, addr_of_live hlive, inode_of_holds hm hip]
    simp only [slot, haddrs]
  · exact addr_putCopy_of_ne hm hip hj a

end Mounted

theorem Owns.putCopy (ho : Owns loose s) {d : Dinode}
    (haddr : ∀ x, (s.putCopy ip d).addr x = s.addr x) : Owns loose (s.putCopy ip d) :=
  ⟨ho.owned.congr haddr fun _ _ _ => Iff.rfl, ho.meta_used⟩

end Store

section Grown

variable {s s' : State} {ip : Fin NINODE} {i j : ℕ} {A : Finset ℕ}

theorem Grown.copy_eq (h : Grown ip i A s s') (hm : Mounted s) (hip : s.Holds ip i)
    (hlive : s.Live i) (hA : ∀ a ∈ A, s.addr (i, a) ≠ 0) : s'.icache = s.icache := by
  have haddr (a : ℕ) : s'.addr (i, a) = s.addr (i, a) := by
    by_cases h0 : s.addr (i, a) = 0
    · by_contra hne
      exact hA a (h.new _ h0 (h0 ▸ hne)).2 h0
    · exact h.old _ h0
  have hlive' := h.live hm hip hlive
  have haddrs : (s'.icache ip).copy.addrs = (s.icache ip).copy.addrs := by
    funext k
    have hk := ofNat_addr hlive' k.val
    rw [haddr, ofNat_addr hlive, slot_of_le (Nat.le_of_lt_succ k.isLt),
      slot_of_le (Nat.le_of_lt_succ k.isLt), inode_of_holds hm hip,
      inode_of_holds h.mounted (h.holds.mpr hip)] at hk
    exact hk.symm
  obtain ⟨addrs, hcache⟩ := h.icache
  rw [hcache, update_self] at haddrs
  dsimp only at haddrs
  rw [hcache, haddrs]
  exact update_eq_self ip s.icache

theorem Grown.inode_of_ne (h : Grown ip i A s s') (hm : Mounted s) (hip : s.Holds ip i)
    (hj : j < s.sb.ninodes.toNat) (hne : j ≠ i) : s'.inode j = s.inode j := by
  obtain ⟨addrs, hcache⟩ := h.icache
  refine inode_congr_of_holds hm h.mounted (fun _ => h.holds) (fun k hk => ?_)
    fun _ => h.dinode j hj
  rw [hcache, update_of_ne (hk.ne hip hne)]

end Grown

end Xv6Prng.FileSys
