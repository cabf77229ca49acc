import Xv6Prng.FileBytes
import Xv6Prng.DirEntry

/-!
# The image that `mkfs` writes

`mkfs` takes blocks and inodes in order and writes the bit map at the end. An image is a file of
sectors: reading one that has not been written yet fails, and so does an assertion. Appending to
an inode fills its slots one after the other, takes no more blocks than the longer file needs
and leaves the other files as they are.
-/

namespace Xv6Prng.Mkfs

open ByteWords Halting Fs FileSys BlockMap Function

abbrev NINODES : ℕ := 200

def nbitmap : ℕ := FSSIZE / (BSIZE * 8) + 1
def ninodeblocks : ℕ := NINODES / IPB + 1
def nlog : ℕ := LOGSIZE
def nmeta : ℕ := 2 + nlog + ninodeblocks + nbitmap
def nblocks : ℕ := FSSIZE - nmeta

def sb : Superblock where
  size := BitVec.ofNat 32 FSSIZE
  nblocks := BitVec.ofNat 32 nblocks
  ninodes := BitVec.ofNat 32 NINODES
  nlog := BitVec.ofNat 32 nlog
  logstart := 2
  inodestart := BitVec.ofNat 32 (2 + nlog)
  bmapstart := BitVec.ofNat 32 (2 + nlog + ninodeblocks)

/-- `exit(1)` after a message, or a failed assertion. -/
inductive Exit
  | perror (what : String)
  | assertion (what : String)
  deriving DecidableEq

structure State where
  image : Disk
  sectors : ℕ
  freeinode : Word
  freeblock : Word

abbrev M := EStateM Exit State

def seek (sec : Word) : Word := BitVec.ofNat 32 ((sec * BitVec.ofNat 32 BSIZE).toNat / BSIZE)

def wsect (sec : Word) (buf : DiskBlock) : M Unit :=
  modify fun s => { s with
    image := Function.update s.image (seek sec) buf
    sectors := max s.sectors ((seek sec).toNat + 1) }

def rsect (sec : Word) : M DiskBlock := do
  let s ← get
  if (seek sec).toNat < s.sectors then return s.image (seek sec) else throw (.perror "read")

def winode (inum : ℕ) (ip : Dinode) : M Unit := do
  let buf ← rsect (sb.iblock inum)
  wsect (sb.iblock inum) (setDinode buf (inum % IPB) ip)

def rinode (inum : ℕ) : M Dinode := do
  let buf ← rsect (sb.iblock inum)
  return getDinode buf (inum % IPB)

def ialloc (type : Short) : M ℕ := do
  let s ← get
  set { s with freeinode := s.freeinode + 1 }
  winode s.freeinode.toNat { Dinode.zero with type := type, nlink := 1 }
  return s.freeinode.toNat

def balloc (used : ℕ) : M Unit :=
  if BSIZE * 8 ≤ used then throw (.assertion "used < BSIZE*8")
  else wsect sb.bmapstart (markFirst used)

def takeBlock : M Word := do
  let s ← get
  set { s with freeblock := s.freeblock + 1 }
  return s.freeblock

def fillAddr (din : Dinode) (k : Fin (NDIRECT + 1)) : M Dinode :=
  if din.addrs k = 0 then do
    let b ← takeBlock
    return din.setAddr k b
  else return din

def fillEntry (ind : Word) (l : ℕ) : M Word := do
  let indirect ← rsect ind
  if loadWord indirect l = 0 then do
    let b ← takeBlock
    wsect ind (storeWord indirect l b)
    return b
  else return loadWord indirect l

def iappendBlock (din : Dinode) (fbn : ℕ) : M (Word × Dinode) :=
  if h : fbn < NDIRECT then do
    let din ← fillAddr din ⟨fbn, Nat.lt_succ_of_lt h⟩
    return (din.addrs ⟨fbn, Nat.lt_succ_of_lt h⟩, din)
  else do
    let din ← fillAddr din (Fin.last NDIRECT)
    let x ← fillEntry (din.addrs (Fin.last NDIRECT)) (fbn - NDIRECT)
    return (x, din)

/-- The loop of `iappend`: `n` bytes are left, and every turn copies at least one. -/
def iappendLoop (p : Str) : ℕ → ℕ → ℕ → ℕ → Dinode → M (Dinode × ℕ)
  | 0, _, off, _, din => return (din, off)
  | fuel + 1, tot, off, n, din =>
    if n = 0 then return (din, off)
    else if MAXFILE ≤ off / BSIZE then throw (.assertion "fbn < MAXFILE")
    else do
      let (x, din) ← iappendBlock din (off / BSIZE)
      let n1 := min n ((off / BSIZE + 1) * BSIZE - off)
      let buf ← rsect x
      wsect x (storeBytes buf (off - off / BSIZE * BSIZE) n1 fun j => p (tot + j))
      iappendLoop p fuel (tot + n1) (off + n1) (n - n1) din

def iappend (inum : ℕ) (p : Str) (n : ℕ) : M Unit := do
  let din ← rinode inum
  let (din, off) ← iappendLoop p n 0 din.size.toNat n din
  winode inum { din with size := BitVec.ofNat 32 off }

def ofList (l : List Byte) : Str := fun k => l.getD k 0

def appendContents (inum : ℕ) : ℕ → List Byte → M Unit
  | 0, _ => return ()
  | fuel + 1, data =>
    if data = [] then return ()
    else do
      iappend inum (ofList data) (min data.length BSIZE)
      appendContents inum fuel (data.drop BSIZE)

structure Input where
  name : List Byte
  contents : List Byte

def addFile (rootino : ℕ) (f : Input) : M Unit :=
  if 0x2f ∈ f.name then throw (.assertion "index(argv[i], '/') == 0")
  else do
    let inum ← ialloc T_FILE
    let name := if f.name.head? = some 0x5f then f.name.tail else f.name
    iappend rootino (Dirent.make (ofList name) inum).bytes DESIZE
    appendContents inum f.contents.length f.contents

def addFiles (rootino : ℕ) : List Input → M Unit
  | [] => return ()
  | f :: fs => do
    addFile rootino f
    addFiles rootino fs

@[irreducible] def blank : M Unit :=
  forLoop (fun i _ => wsect (BitVec.ofNat 32 i) fun _ => 0) 0 FSSIZE ()

def mkfs (files : List Input) : M Unit := do
  blank
  wsect 1 (sb.toBlock fun _ => 0)
  let rootino ← ialloc T_DIR
  if rootino ≠ ROOTINO then throw (.assertion "rootino == ROOTINO")
  iappend rootino (Dirent.make (ofList [0x2e]) rootino).bytes DESIZE
  iappend rootino (Dirent.make (ofList [0x2e, 0x2e]) rootino).bytes DESIZE
  addFiles rootino files
  let din ← rinode rootino
  winode rootino { din with size := BitVec.ofNat 32 ((din.size.toNat / BSIZE + 1) * BSIZE) }
  let s ← get
  balloc s.freeblock.toNat

def start : State := ⟨fun _ _ => 0, 0, 1, BitVec.ofNat 32 nmeta⟩

variable {E : Exit → State → Prop} {din : Dinode} {n off : ℕ} {x : ℕ × ℕ}

section Sectors

variable {s : State} {sec : Word} {buf : DiskBlock}

theorem seek_of_lt (h : sec.toNat < FSSIZE) : seek sec = sec := by
  have hlt : sec.toNat < 1000 := h
  have hmul : (sec * BitVec.ofNat 32 BSIZE).toNat = sec.toNat * 512 := by
    rw [BitVec.toNat_mul, show (BitVec.ofNat 32 BSIZE).toNat = 512 from rfl]
    omega
  rw [seek, hmul, Nat.mul_div_cancel _ (by decide), BitVec.ofNat_toNat, BitVec.setWidth_eq]

def State.write (s : State) (sec : Word) (buf : DiskBlock) : State :=
  { s with image := Function.update s.image sec buf }

theorem image_write_self : (s.write sec buf).image sec = buf := update_self ..

theorem image_write_of_ne {b : Word} (h : b ≠ sec) : (s.write sec buf).image b = s.image b :=
  update_of_ne h _ _

theorem wsect_run (hs : s.sectors = FSSIZE) (h : sec.toNat < FSSIZE) :
    (wsect sec buf).run s = .ok () (s.write sec buf) := by
  have hmax : max s.sectors (sec.toNat + 1) = s.sectors := by
    rw [hs]
    exact max_eq_left h
  rw [wsect, EStateM.run_modify, seek_of_lt h, hmax]
  rfl

theorem rsect_run (hs : s.sectors = FSSIZE) (h : sec.toNat < FSSIZE) :
    (rsect sec).run s = .ok (s.image sec) s := by
  rw [rsect, get_bind, seek_of_lt h, if_pos (hs.symm ▸ h)]
  rfl

theorem rsect_ends (hs : s.sectors = FSSIZE) (h : sec.toNat ≤ FSSIZE)
    (hE : sec.toNat = FSSIZE → ∀ e t, E e t) :
    Ends (rsect sec) s (fun buf s' => sec.toNat < FSSIZE ∧ buf = s.image sec ∧ s' = s) E := by
  rcases Nat.lt_or_eq_of_le h with hlt | heq
  · exact ends_of_ok (rsect_run hs hlt) ⟨hlt, rfl, rfl⟩
  · have hseek : (seek sec).toNat = FSSIZE := by
      have hsec : sec = BitVec.ofNat 32 FSSIZE := BitVec.eq_of_toNat_eq heq
      rw [hsec]
      rfl
    refine ends_get_bind ?_
    rw [if_neg (by rw [hseek, hs]; exact Nat.lt_irrefl _)]
    exact ends_throw (hE heq _ _)

end Sectors

def dinodes (image : Disk) (i : ℕ) : Dinode :=
  if i < NINODES then getDinode (image (sb.iblock i)) (i % IPB) else Dinode.zero

def addrOf (D : ℕ → Dinode) (image : Disk) (k : ℕ × ℕ) : ℕ := (slot image (D k.1) k.2).toNat

def fileByte (D : ℕ → Dinode) (image : Disk) (i k : ℕ) : Byte :=
  byteAt (image (slot image (D i) (blockSlot (k / BSIZE)))) (k % BSIZE)

structure Put (i : ℕ) (val : ℕ → Byte) (lo hi : ℕ) (D : ℕ → Dinode) (image : Disk)
    (D' : ℕ → Dinode) (image' : Disk) : Prop where
  keep : ∀ j bn, addrOf D image (j, blockSlot bn) ≠ 0 → addrOf D' image' (j, blockSlot bn) ≠ 0
  full : ∀ k, lo ≤ k → k < hi → addrOf D' image' (i, blockSlot (k / BSIZE)) ≠ 0
  old : ∀ j k, addrOf D image (j, blockSlot (k / BSIZE)) ≠ 0 →
    fileByte D' image' j k = if j = i ∧ lo ≤ k ∧ k < hi then val k else fileByte D image j k
  new : ∀ k, lo ≤ k → k < hi → fileByte D' image' i k = val k

def blocksFor (n : ℕ) : ℕ := (n + (BSIZE - 1)) / BSIZE + if NDIRECT * BSIZE < n then 1 else 0

def lacking (D : ℕ → Dinode) (image : Disk) (i fbn : ℕ) : ℕ :=
  ((needed fbn).filter fun a => addrOf D image (i, a) = 0).card

structure Built (D : ℕ → Dinode) (s : State) : Prop where
  sectors : s.sectors = FSSIZE
  super : Superblock.ofBlock (s.image 1) = sb
  range : nmeta ≤ s.freeblock.toNat ∧ s.freeblock.toNat ≤ FSSIZE
  inodes : 1 ≤ s.freeinode.toNat ∧ s.freeinode.toNat ≤ NINODES
  unused : ∀ i, i = 0 ∨ s.freeinode.toNat ≤ i → D i = Dinode.zero
  kinds : ∀ i, 1 ≤ i → i < s.freeinode.toNat → (D i).type ≠ 0
  blank : ∀ b, s.freeblock.toNat ≤ b → b < FSSIZE → s.image (BitVec.ofNat 32 b) = fun _ => 0
  owned : Owned (addrOf D s.image) (· < s.freeblock.toNat) nmeta FSSIZE ∅
  full : ∀ i bn, bn * BSIZE < (D i).size.toNat → addrOf D s.image (i, blockSlot bn) ≠ 0

def Tight (D : ℕ → Dinode) (image : Disk) : Prop :=
  ∀ i bn, (D i).size.toNat ≤ bn * BSIZE → addrOf D image (i, blockSlot bn) = 0

section Built

variable {D D' : ℕ → Dinode} {s s' : State} {i : ℕ} {d : Dinode}

theorem ofNat_toNat_of_lt {b : ℕ} (h : b ≤ FSSIZE) : (BitVec.ofNat 32 b).toNat = b := by
  have hle : b ≤ 1000 := h
  exact Nat.mod_eq_of_lt (by omega)

theorem iblock_lt {i : ℕ} (hi : i < NINODES) : 1 < (sb.iblock i).toNat ∧
    (sb.iblock i).toNat < 57 := by
  have hlt : i < 200 := hi
  have hblock : (sb.iblock i).toNat = i / 8 + 32 := by
    rw [Superblock.iblock, show sb.inodestart.toNat = 32 from rfl, BitVec.toNat_ofNat]
    exact Nat.mod_eq_of_lt (by simp only [IPB]; omega)
  omega

theorem dinodes_write {sec : Word} {buf : DiskBlock} (h : 57 ≤ sec.toNat) :
    dinodes (s.write sec buf).image = dinodes s.image := by
  funext i
  rw [dinodes, dinodes]
  split_ifs with hi
  · have hne : sb.iblock i ≠ sec := by
      intro heq
      have hlt := (iblock_lt hi).2
      rw [heq] at hlt
      omega
    rw [image_write_of_ne hne]
  · rfl

theorem toNat_succ_of_lt {b : Word} (h : b.toNat < FSSIZE) : (b + 1).toNat = b.toNat + 1 := by
  have hlt : b.toNat < 1000 := h
  rw [BitVec.toNat_add, show (1 : Word).toNat = 1 from rfl]
  omega

theorem Built.take (h : Built D s) {a : ℕ} {image : Disk} (hlt : s.freeblock.toNat < FSSIZE)
    (h0 : addrOf D s.image (i, a) = 0)
    (haddr : ∀ x, addrOf D' image x = update (addrOf D s.image) (i, a) s.freeblock.toNat x)
    (hsuper : image 1 = s.image 1)
    (hblank : ∀ b, s.freeblock.toNat < b → b < FSSIZE → image (BitVec.ofNat 32 b) = fun _ => 0)
    (hunused : ∀ j, j = 0 ∨ s.freeinode.toNat ≤ j → D' j = Dinode.zero)
    (hD : ∀ j, (D' j).type = (D j).type ∧ (D' j).size = (D j).size) :
    Built D' { s with image := image, freeblock := s.freeblock + 1 } := by
  have hnext := toNat_succ_of_lt hlt
  have hpos : s.freeblock.toNat ≠ 0 := Nat.ne_of_gt (lt_of_lt_of_le (by decide) h.range.1)
  have htake := h.owned.take (fun c => c < (s.freeblock + 1).toNat) h.range.1 hlt
    (Nat.lt_irrefl _) fun c _ _ => by rw [hnext]; omega
  have hfill := htake.fill (Set.notMem_empty _) h0
  refine ⟨h.sectors, (congrArg Superblock.ofBlock hsuper).trans h.super, ⟨?_, ?_⟩, h.inodes,
    hunused, fun j hj hj' => ?_, fun b hb hb' => ?_, ?_, fun j bn hbn => ?_⟩
  · rw [hnext]
    exact h.range.1.trans (Nat.le_succ _)
  · rw [hnext]
    exact hlt
  · rw [(hD j).1]
    exact h.kinds j hj hj'
  · rw [hnext] at hb
    exact hblank b hb hb'
  · exact hfill.congr haddr fun _ _ _ => Iff.rfl
  · rw [haddr]
    rw [(hD j).2] at hbn
    have hold := h.full j bn hbn
    by_cases hx : (j, blockSlot bn) = (i, a)
    · rw [hx, update_self]
      exact hpos
    · rwa [update_of_ne hx]

def sized (din : Dinode) (off : ℕ) : Dinode := { din with size := BitVec.ofNat 32 off }

/-- The block `x` of a slot after at most `c` blocks have been taken: it lies outside the image
only if there are none left. -/
structure Taken (D D' : ℕ → Dinode) (a : ℕ × ℕ) (c : ℕ) (x : Word) (s s' : State) : Prop where
  sectors : s'.sectors = FSSIZE
  le : x.toNat ≤ FSSIZE
  none : x.toNat = FSSIZE → FSSIZE < s.freeblock.toNat + c
  built : x.toNat < FSSIZE → Built D' s'
  addr : x.toNat < FSSIZE → addrOf D' s'.image a = x.toNat ∧ x ≠ 0
  other : x.toNat < FSSIZE → ∀ y ≠ a, y.2 ≠ NDIRECT → addrOf D' s'.image y = addrOf D s.image y
  freeinode : s'.freeinode = s.freeinode
  dinodes : dinodes s'.image = dinodes s.image
  freeblock : x.toNat < FSSIZE →
    s.freeblock.toNat ≤ s'.freeblock.toNat ∧ s'.freeblock.toNat ≤ s.freeblock.toNat + c
  bytes : x.toNat < FSSIZE → Put a.1 (fun _ => 0) 0 0 D s.image D' s'.image

section Put

variable {image image' image'' : Disk} {D'' : ℕ → Dinode} {val val' : ℕ → Byte} {lo mid hi : ℕ}

theorem fileByte_congr {j k : ℕ} (haddr : addrOf D' image' (j, blockSlot (k / BSIZE)) =
      addrOf D image (j, blockSlot (k / BSIZE)))
    (himage : image' (slot image (D j) (blockSlot (k / BSIZE))) =
      image (slot image (D j) (blockSlot (k / BSIZE)))) :
    fileByte D' image' j k = fileByte D image j k := by
  rw [fileByte, fileByte, show slot image' (D' j) (blockSlot (k / BSIZE)) =
    slot image (D j) (blockSlot (k / BSIZE)) from BitVec.eq_of_toNat_eq haddr, himage]

theorem put_nothing (i lo : ℕ) (val : ℕ → Byte)
    (haddr : ∀ j bn, addrOf D image (j, blockSlot bn) ≠ 0 →
      addrOf D' image' (j, blockSlot bn) = addrOf D image (j, blockSlot bn))
    (himage : ∀ j bn, addrOf D image (j, blockSlot bn) ≠ 0 →
      image' (slot image (D j) (blockSlot bn)) = image (slot image (D j) (blockSlot bn))) :
    Put i val lo lo D image D' image' where
  keep j bn h := by rwa [haddr j bn h]
  full k hlo hhi := by omega
  old j k h := by
    rw [if_neg (by omega)]
    exact fileByte_congr (haddr j _ h) (himage j _ h)
  new k hlo hhi := by omega

theorem Put.move (h : Put i val lo lo D image D' image') (j mid : ℕ) (val' : ℕ → Byte) :
    Put j val' mid mid D image D' image' where
  keep := h.keep
  full k hlo hhi := by omega
  old l k hk := by
    rw [h.old l k hk, if_neg (by omega), if_neg (by omega)]
  new k hlo hhi := by omega

theorem Put.trans (h : Put i val lo mid D image D' image')
    (h' : Put i val mid hi D' image' D'' image'') (hlo : lo ≤ mid) (hhi : mid ≤ hi) :
    Put i val lo hi D image D'' image'' where
  keep j bn hk := h'.keep j bn (h.keep j bn hk)
  full k hk hk' := by
    by_cases hkm : k < mid
    · exact h'.keep i _ (h.full k hk hkm)
    · exact h'.full k (Nat.not_lt.mp hkm) hk'
  old j k hk := by
    rw [h'.old j k (h.keep j _ hk), h.old j k hk]
    by_cases hj : j = i
    · simp only [hj, true_and]
      split_ifs <;> first | rfl | omega
    · simp [hj]
  new k hk hk' := by
    by_cases hkm : k < mid
    · rw [h'.old i k (h.full k hk hkm), if_neg (by omega)]
      exact h.new k hk hkm
    · exact h'.new k (Nat.not_lt.mp hkm) hk'

end Put

theorem Built.image_freeblock (h : Built D s) (hlt : s.freeblock.toNat < FSSIZE) :
    s.image s.freeblock = fun _ => 0 := by
  have hblank := h.blank _ le_rfl hlt
  rwa [BitVec.ofNat_toNat, BitVec.setWidth_eq] at hblank

theorem Built.freeblock_ne_zero (h : Built D s) : s.freeblock ≠ 0 := by
  intro h0
  have hlo := h.range.1
  rw [h0] at hlo
  exact absurd hlo (by decide)

variable {image : Disk}

theorem addrOf_update_of_ne (hx : x.1 ≠ i) : addrOf (update D i d) image x = addrOf D image x := by
  rw [addrOf, addrOf, update_of_ne hx]

theorem addrOf_update_self (a : ℕ) :
    addrOf (update D i d) image (i, a) = (slot image d a).toNat := by
  rw [addrOf, update_self]

theorem Built.taken (h : Built D s) {a : ℕ} (h0 : addrOf D s.image (i, a) = 0)
    (hdin : dinodes image = dinodes s.image)
    (htake : s.freeblock.toNat < FSSIZE →
      (∀ x, addrOf D' image x = update (addrOf D s.image) (i, a) s.freeblock.toNat x) ∧
      Built D' { s with image := image, freeblock := s.freeblock + 1 } ∧
      ∀ j bn, addrOf D s.image (j, blockSlot bn) ≠ 0 →
        image (slot s.image (D j) (blockSlot bn)) = s.image (slot s.image (D j) (blockSlot bn))) :
    Taken D D' (i, a) 1 s.freeblock s
      { s with image := image, freeblock := s.freeblock + 1 } where
  sectors := h.sectors
  le := h.range.2
  none heq := Nat.lt_succ_of_le heq.ge
  built hlt := (htake hlt).2.1
  addr hlt := ⟨((htake hlt).1 _).trans (update_self ..), h.freeblock_ne_zero⟩
  other hlt y hy _ := ((htake hlt).1 y).trans (update_of_ne hy _ _)
  freeinode := rfl
  dinodes := hdin
  freeblock hlt := by
    rw [toNat_succ_of_lt hlt]
    exact ⟨Nat.le_succ _, le_rfl⟩
  bytes hlt := by
    refine put_nothing i 0 _ (fun j bn hbn => ((htake hlt).1 _).trans ?_) (htake hlt).2.2
    exact update_of_ne (fun heq => hbn ((congrArg _ heq).trans h0)) _ _

theorem Built.taken_nothing (h : Built D s) {a : ℕ × ℕ} {x : Word}
    (haddr : addrOf D s.image a = x.toNat) (hx : x ≠ 0) : Taken D D a 0 x s s := by
  have hlt := (h.owned.range a (haddr ▸ fun h0 => hx (BitVec.eq_of_toNat_eq h0))).2
  rw [haddr] at hlt
  exact ⟨h.sectors, hlt.le, fun heq => absurd heq hlt.ne, fun _ => h, fun _ => ⟨haddr, hx⟩,
    fun _ _ _ _ => rfl, rfl, rfl, fun _ => ⟨le_rfl, le_rfl⟩,
    fun _ => put_nothing _ 0 _ (fun _ _ _ => rfl) fun _ _ _ => rfl⟩

theorem takeBlock_run :
    takeBlock.run s = .ok s.freeblock { s with freeblock := s.freeblock + 1 } := rfl

theorem slot_zero (image : Disk) (a : ℕ) : (slot image Dinode.zero a).toNat = 0 := by
  by_cases ha : a ≤ NDIRECT
  · rw [slot_of_le ha]
    rfl
  · rw [slot_of_zero (Nat.not_le.mp ha) rfl]
    rfl

theorem fillAddr_ends (h : Built (update D i (sized din off)) s)
    (hi : 1 ≤ i ∧ i < s.freeinode.toNat) (k : Fin (NDIRECT + 1)) :
    Ends (fillAddr din k) s
      (fun din' s' => Taken (update D i (sized din off))
        (update D i (sized din' off)) (i, k.val) (if din.addrs k = 0 then 1 else 0)
        (din'.addrs k) s s' ∧ din' = { din with addrs := din'.addrs }) E := by
  rw [fillAddr]
  split_ifs with h0
  · have haddr (hlt : s.freeblock.toNat < FSSIZE) (x : ℕ × ℕ) :
        addrOf (update D i (sized (din.setAddr k s.freeblock) off)) s.image x =
          update (addrOf (update D i (sized din off)) s.image) (i, k.val)
            s.freeblock.toNat x := by
      obtain ⟨j, a⟩ := x
      by_cases hj : j = i
      · subst hj
        have hslot := slot_setAddr (d := sized din off) (a := a) s.image h0 h.freeblock_ne_zero
          (h.image_freeblock hlt) fun _ => rfl
        rw [addrOf_update_self, show sized (din.setAddr k s.freeblock) off =
          (sized din off).setAddr k s.freeblock from rfl, hslot]
        by_cases ha : a = k.val
        · rw [if_pos ha, ha, update_self]
        · rw [if_neg ha, update_of_ne fun h => ha (Prod.mk.inj h).2, addrOf_update_self]
      · rw [update_of_ne fun h => hj (Prod.mk.inj h).1, addrOf_update_of_ne hj,
          addrOf_update_of_ne hj]
    have hx : (din.setAddr k s.freeblock).addrs k = s.freeblock := update_self ..
    have hzero : addrOf (update D i (sized din off)) s.image (i, k.val) = 0 := by
      rw [addrOf_update_self, slot_of_le (Nat.le_of_lt_succ k.isLt)]
      exact congrArg BitVec.toNat h0
    refine Ends.bind_of_eq takeBlock_run (ends_pure ⟨?_, rfl⟩)
    rw [hx]
    refine h.taken hzero rfl fun hlt => ⟨haddr hlt, ?_, fun _ _ _ => rfl⟩
    refine h.take hlt hzero (haddr hlt) rfl (fun b hb => h.blank b hb.le) (fun j hj => ?_)
      fun j => ?_
    · have hne : j ≠ i := by omega
      have hunused := h.unused j hj
      rwa [update_of_ne hne] at hunused ⊢
    · by_cases hj : j = i
      · rw [hj, update_self, update_self]
        exact ⟨rfl, rfl⟩
      · rw [update_of_ne hj, update_of_ne hj]
        exact ⟨rfl, rfl⟩
  · refine ends_pure ⟨h.taken_nothing ?_ h0, rfl⟩
    rw [addrOf_update_self, slot_of_le (Nat.le_of_lt_succ k.isLt)]
    rfl

theorem Built.addr_inj (h : Built D s) {y : ℕ × ℕ} (hx : addrOf D s.image x ≠ 0)
    (heq : slot s.image (D x.1) x.2 = slot s.image (D y.1) y.2) : x = y :=
  h.owned.inj x y (congrArg BitVec.toNat heq) hx

theorem Built.slot_range (h : Built D s) (hx : addrOf D s.image x ≠ 0) :
    nmeta ≤ (slot s.image (D x.1) x.2).toNat ∧ (slot s.image (D x.1) x.2).toNat < FSSIZE :=
  h.owned.range x hx

theorem addrOf_eq_zero_iff : addrOf D image x = 0 ↔ slot image (D x.1) x.2 = 0 := by
  rw [addrOf, show 0 = (0 : Word).toNat from rfl, BitVec.toNat_inj]

theorem fillEntry_ends (h : Built D s) (hind : (D i).addrs (Fin.last NDIRECT) ≠ 0) {l : ℕ}
    (hl : l < NINDIRECT) :
    Ends (fillEntry ((D i).addrs (Fin.last NDIRECT)) l) s
      (fun x s' => Taken D D (i, NDIRECT + 1 + l)
        (if addrOf D s.image (i, NDIRECT + 1 + l) = 0 then 1 else 0) x s s') E := by
  set ind := (D i).addrs (Fin.last NDIRECT) with hinddef
  have hlast : slot s.image (D i) NDIRECT = ind := slot_last ..
  have hind0 : addrOf D s.image (i, NDIRECT) ≠ 0 := by
    rwa [ne_eq, addrOf_eq_zero_iff, hlast]
  obtain ⟨hlo, hhi⟩ := h.slot_range hind0
  rw [hlast] at hlo hhi
  have hslot : slot s.image (D i) (NDIRECT + 1 + l) = loadWord (s.image ind) l := by
    rw [slot_of_lt (by omega) (by omega) hind, Nat.add_sub_cancel_left]
  refine Ends.bind_of_eq (rsect_run h.sectors hhi) ?_
  by_cases h0 : loadWord (s.image ind) l = 0
  · rw [if_pos h0]
    have hzero : addrOf D s.image (i, NDIRECT + 1 + l) = 0 := by
      rw [addrOf_eq_zero_iff, hslot, h0]
    refine Ends.bind_of_eq takeBlock_run ?_
    set s₁ : State := { s with freeblock := s.freeblock + 1 } with hs₁
    refine Ends.bind_of_eq (wsect_run h.sectors hhi) (ends_pure ?_)
    have haddr (x : ℕ × ℕ) :
        addrOf D (s₁.write ind (storeWord (s.image ind) l s.freeblock)).image x =
          update (addrOf D s.image) (i, NDIRECT + 1 + l) s.freeblock.toNat x := by
      obtain ⟨j, a⟩ := x
      by_cases hj : j = i
      · subst hj
        rw [addrOf, slot_storeWord hind hl (image_write_self ..)]
        by_cases ha : a = NDIRECT + 1 + l
        · rw [if_pos ha, ha, update_self]
        · rw [if_neg ha, update_of_ne fun h => ha (Prod.mk.inj h).2]
          rfl
      · rw [update_of_ne fun h => hj (Prod.mk.inj h).1]
        refine congrArg BitVec.toNat (slot_congr fun hne => image_write_of_ne fun heq => hj ?_)
        have hj0 : addrOf D s.image (j, NDIRECT) ≠ 0 := by
          rwa [ne_eq, addrOf_eq_zero_iff, slot_last]
        refine (Prod.mk.inj (h.addr_inj hj0 (y := (i, NDIRECT)) ?_)).1
        rw [hlast, slot_last]
        exact heq
    have hmeta : (57 : ℕ) ≤ ind.toNat := le_trans (by decide) hlo
    rw [if_pos hzero]
    refine h.taken hzero (dinodes_write hmeta) fun hlt => ⟨haddr, ?_, fun j bn hbn => ?_⟩
    · refine h.take hlt hzero haddr ?_ (fun b hb hb' => ?_) h.unused fun _ => ⟨rfl, rfl⟩
      · refine image_write_of_ne fun heq => ?_
        rw [← heq] at hmeta
        exact absurd hmeta (by decide)
      · refine (image_write_of_ne fun heq => ?_).trans (h.blank b hb.le hb')
        have hused := h.owned.used_addr hind0
        rw [addrOf, hlast, ← heq, ofNat_toNat_of_lt hb'.le] at hused
        omega
    · refine image_write_of_ne fun heq => blockSlot_ne bn ?_
      exact (Prod.mk.inj (h.addr_inj hbn (y := (i, NDIRECT)) (heq.trans hlast.symm))).2
  · have hne : addrOf D s.image (i, NDIRECT + 1 + l) ≠ 0 := by
      rwa [ne_eq, addrOf_eq_zero_iff, hslot]
    rw [if_neg h0, if_neg hne]
    exact ends_pure (h.taken_nothing (congrArg BitVec.toNat hslot) h0)

theorem lacking_direct (image : Disk) {fbn : ℕ} (h : fbn < NDIRECT) :
    lacking D image i fbn = if addrOf D image (i, fbn) = 0 then 1 else 0 := by
  rw [lacking, needed, if_pos h, Finset.filter_singleton]
  split_ifs
  · exact Finset.card_singleton _
  · exact Finset.card_empty

theorem lacking_indirect (image : Disk) {fbn : ℕ} (h : ¬ fbn < NDIRECT) :
    lacking D image i fbn = (if addrOf D image (i, NDIRECT) = 0 then 1 else 0) +
      if addrOf D image (i, fbn + 1) = 0 then 1 else 0 := by
  have hne : NDIRECT ∉ ({fbn + 1} : Finset ℕ) := by
    rw [Finset.mem_singleton]
    omega
  rw [lacking, needed, if_neg h, Finset.card_filter, Finset.sum_insert hne, Finset.sum_singleton]

theorem iappendBlock_ends {fbn : ℕ} (h : Built (update D i (sized din off)) s)
    (hi : 1 ≤ i ∧ i < s.freeinode.toNat) (hfbn : fbn < MAXFILE) :
    Ends (iappendBlock din fbn) s
      (fun q s' => Taken (update D i (sized din off))
        (update D i (sized q.2 off)) (i, blockSlot fbn)
        (lacking (update D i (sized din off)) s.image i fbn) q.1 s s' ∧
        q.2 = { din with addrs := q.2.addrs })
      (fun _ _ => FSSIZE < s.freeblock.toNat +
        lacking (update D i (sized din off)) s.image i fbn) := by
  have hslot (k : Fin (NDIRECT + 1)) :
      addrOf (update D i (sized din off)) s.image (i, k.val) = 0 ↔ din.addrs k = 0 := by
    rw [addrOf_eq_zero_iff, update_self, slot_of_le (Nat.le_of_lt_succ k.isLt)]
    rfl
  rw [iappendBlock, blockSlot]
  split_ifs with hdirect
  · refine (fillAddr_ends h hi ⟨fbn, Nat.lt_succ_of_lt hdirect⟩).bind ?_
    rintro din' s' ⟨ht, htype⟩
    rw [lacking_direct s.image hdirect, if_congr (hslot ⟨fbn, Nat.lt_succ_of_lt hdirect⟩) rfl rfl]
    exact ends_pure ⟨ht, htype⟩
  · refine (fillAddr_ends h hi (Fin.last NDIRECT)).bind ?_
    rintro din' s₁ ⟨ht, htype⟩
    have hl : fbn - NDIRECT < NINDIRECT := by
      simp only [MAXFILE, NDIRECT, NINDIRECT] at hfbn ⊢
      omega
    have hsum := lacking_indirect (D := update D i (sized din off)) (i := i) s.image
      hdirect
    have hlast := hslot (Fin.last NDIRECT)
    rw [Fin.val_last] at hlast
    rw [if_congr hlast rfl rfl] at hsum
    rcases Nat.lt_or_eq_of_le ht.le with hlt | heq
    · have hD : (update D i (sized din' off) i).addrs (Fin.last NDIRECT) =
          din'.addrs (Fin.last NDIRECT) := by
        rw [update_self, sized]
      have hentry := fillEntry_ends (i := i)
        (E := fun _ _ => FSSIZE < s.freeblock.toNat +
          lacking (update D i (sized din off)) s.image i fbn) (ht.built hlt)
        (by rw [hD]; exact (ht.addr hlt).2) hl
      have hne : ((i, fbn + 1) : ℕ × ℕ) ≠ (i, (Fin.last NDIRECT).val) := fun heq => by
        have h12 : fbn + 1 = NDIRECT := (Prod.mk.inj heq).2
        omega
      rw [hD, show NDIRECT + 1 + (fbn - NDIRECT) = fbn + 1 by omega,
        ht.other hlt (i, fbn + 1) hne (by omega)] at hentry
      refine hentry.bind fun x s₂ ht₂ => ends_pure ⟨?_, htype⟩
      obtain ⟨hge, hle⟩ := ht.freeblock hlt
      exact
        { sectors := ht₂.sectors
          le := ht₂.le
          none := fun heq => by
            have hnone := ht₂.none heq
            omega
          built := ht₂.built
          addr := ht₂.addr
          other := fun hlt₂ y hy hy12 => (ht₂.other hlt₂ y hy hy12).trans
            (ht.other hlt y (fun heq => hy12 (congrArg Prod.snd heq)) hy12)
          freeinode := ht₂.freeinode.trans ht.freeinode
          dinodes := ht₂.dinodes.trans ht.dinodes
          freeblock := fun hlt₂ => by
            obtain ⟨hge₂, hle₂⟩ := ht₂.freeblock hlt₂
            omega
          bytes := fun hlt₂ => (ht.bytes hlt).trans (ht₂.bytes hlt₂) le_rfl le_rfl }
    · -- the indirect block itself lies outside the image
      have hnone := ht.none heq
      have hread := rsect_ends (E := fun _ _ => FSSIZE < s.freeblock.toNat +
        lacking (update D i (sized din off)) s.image i fbn) ht.sectors ht.le
        fun _ _ _ => by omega
      refine Ends.bind (P := fun _ _ => False) ?_ fun _ _ hfalse => hfalse.elim
      exact hread.bind fun _ _ hlt => absurd hlt.1 (heq ▸ Nat.lt_irrefl _)

theorem Built.addrOf_write (h : Built D s) {bn : ℕ} {x : Word} {buf : DiskBlock}
    (hx : slot s.image (D i) (blockSlot bn) = x) (y : ℕ × ℕ) :
    addrOf D (s.write x buf).image y = addrOf D s.image y := by
  refine congrArg BitVec.toNat (slot_congr fun hne => image_write_of_ne fun heq => ?_)
  have hy0 : addrOf D s.image (y.1, NDIRECT) ≠ 0 := by
    rwa [ne_eq, addrOf_eq_zero_iff, slot_last]
  have hslot := h.addr_inj hy0 (y := (i, blockSlot bn)) (by rw [slot_last, hx, heq])
  exact blockSlot_ne bn (Prod.mk.inj hslot).2.symm

theorem Built.write (h : Built D s) {bn : ℕ} {x : Word} {buf : DiskBlock}
    (hx : slot s.image (D i) (blockSlot bn) = x) (hx0 : x ≠ 0) : Built D (s.write x buf) := by
  have haddr0 : addrOf D s.image (i, blockSlot bn) ≠ 0 := by
    rwa [ne_eq, addrOf_eq_zero_iff, hx]
  obtain ⟨hlo, hhi⟩ := h.slot_range haddr0
  rw [hx] at hlo hhi
  have haddr : ∀ y, addrOf D (s.write x buf).image y = addrOf D s.image y := h.addrOf_write hx
  refine ⟨h.sectors, ?_, h.range, h.inodes, h.unused, h.kinds, fun b hb hb' => ?_, ?_,
    fun j c hc => ?_⟩
  · rw [image_write_of_ne fun heq => ?_]
    · exact h.super
    · rw [← heq] at hlo
      exact absurd hlo (by decide)
  · refine (image_write_of_ne fun heq => ?_).trans (h.blank b hb hb')
    have hused := h.owned.used_addr haddr0
    rw [addrOf, hx, ← heq, ofNat_toNat_of_lt hb'.le] at hused
    exact Nat.not_lt.mpr hb hused
  · exact h.owned.congr haddr fun _ _ _ => Iff.rfl
  · rw [haddr]
    exact h.full j c hc

theorem addrOf_sized (off size : ℕ) (x : ℕ × ℕ) :
    addrOf (update D i (sized din size)) image x = addrOf (update D i (sized din off)) image x := by
  by_cases hx : x.1 = i
  · obtain ⟨j, a⟩ := x
    obtain rfl : j = i := hx
    rw [addrOf_update_self, addrOf_update_self]
    rfl
  · rw [addrOf_update_of_ne hx, addrOf_update_of_ne hx]

theorem Built.resize {size : ℕ} (h : Built (update D i (sized din off)) s)
    (hi : 1 ≤ i ∧ i < s.freeinode.toNat) (hsize : size < 2 ^ 32) (hfull : ∀ bn, bn * BSIZE < size →
      addrOf (update D i (sized din off)) s.image (i, blockSlot bn) ≠ 0) :
    Built (update D i (sized din size)) s := by
  refine ⟨h.sectors, h.super, h.range, h.inodes, fun j hj => ?_, fun j hj hj' => ?_, h.blank,
    h.owned.congr (addrOf_sized off size) fun _ _ _ => Iff.rfl, fun j bn hbn => ?_⟩
  · have hunused := h.unused j hj
    have hne : j ≠ i := by omega
    rwa [update_of_ne hne] at hunused ⊢
  · have hkind := h.kinds j hj hj'
    by_cases hji : j = i
    · rw [hji, update_self] at hkind ⊢
      exact hkind
    · rwa [update_of_ne hji] at hkind ⊢
  · rw [addrOf_sized off size]
    by_cases hji : j = i
    · subst hji
      rw [update_self, sized, BitVec.toNat_ofNat, Nat.mod_eq_of_lt hsize] at hbn
      exact hfull bn hbn
    · rw [update_of_ne hji] at hbn
      refine h.full j bn ?_
      rwa [update_of_ne hji]

theorem Built.grow (h : Built (update D i (sized din off)) s) (hi : 1 ≤ i ∧ i < s.freeinode.toNat)
    (hoff : off + piece off n ≤ MAXFILE * BSIZE)
    (haddr : addrOf (update D i (sized din off)) s.image (i, blockSlot (off / BSIZE)) ≠ 0) :
    Built (update D i (sized din (off + piece off n))) s := by
  have hoff' : off + piece off n ≤ 71680 := hoff
  refine h.resize hi (by omega) fun bn hbn => ?_
  by_cases hold : bn * BSIZE < off
  · refine h.full i bn ?_
    rwa [update_self, sized, BitVec.toNat_ofNat, Nat.mod_eq_of_lt (by omega)]
  · have hbn' : bn = off / BSIZE := by
      simp only [piece, BSIZE] at hbn hold ⊢
      omega
    rwa [hbn']

theorem Tight.grow {din' : Dinode} (hn : n ≠ 0)
    (hoff : off + piece off n ≤ MAXFILE * BSIZE) (h : Tight (update D i (sized din off)) s.image)
    (hother : ∀ y ≠ (i, blockSlot (off / BSIZE)), y.2 ≠ NDIRECT →
      addrOf (update D i (sized din' off)) image y =
        addrOf (update D i (sized din off)) s.image y) :
    Tight (update D i (sized din' (off + piece off n))) image := by
  intro j bn hbn
  have hpos := piece_pos off hn
  have hoff' : off + piece off n ≤ 71680 := hoff
  rw [addrOf_sized off]
  by_cases hj : j = i
  · subst hj
    rw [update_self, sized, BitVec.toNat_ofNat, Nat.mod_eq_of_lt (by omega)] at hbn
    have hne : bn ≠ off / BSIZE := by
      rintro rfl
      have hle := Nat.div_mul_le_self off BSIZE
      omega
    rw [hother (j, blockSlot bn) (fun heq => hne (blockSlot_inj (Prod.mk.inj heq).2))
      (blockSlot_ne bn)]
    refine h j bn ?_
    rw [update_self, sized, BitVec.toNat_ofNat, Nat.mod_eq_of_lt (by omega)]
    omega
  · rw [hother (j, blockSlot bn) (fun heq => hj (Prod.mk.inj heq).1) (blockSlot_ne bn)]
    refine h j bn ?_
    rwa [update_of_ne hj] at hbn ⊢

theorem put_write (val : ℕ → Byte) {tot : ℕ} {p : Str} {x : Word} (h : Built D s)
    (hx : slot s.image (D i) (blockSlot (off / BSIZE)) = x) (hx0 : x ≠ 0)
    (hp : ∀ j, p (tot + j) = val (off + j)) :
    Put i val off (off + piece off n) D s.image D
      (s.write x (storeBytes (s.image x) (off - off / BSIZE * BSIZE) (piece off n)
        fun j => p (tot + j))).image := by
  have haddr0 : addrOf D s.image (i, blockSlot (off / BSIZE)) ≠ 0 := by
    rwa [ne_eq, addrOf_eq_zero_iff, hx]
  have hmod : off - off / BSIZE * BSIZE = off % BSIZE := by
    simp only [BSIZE]
    omega
  rw [hmod]
  set buf := storeBytes (s.image x) (off % BSIZE) (piece off n) fun j => p (tot + j)
  have haddr : ∀ y, addrOf D (s.write x buf).image y = addrOf D s.image y := h.addrOf_write hx
  have hold (j k : ℕ) (hk : addrOf D s.image (j, blockSlot (k / BSIZE)) ≠ 0) :
      fileByte D (s.write x buf).image j k =
        if j = i ∧ off ≤ k ∧ k < off + piece off n then val k else fileByte D s.image j k := by
    by_cases hsame : j = i ∧ k / BSIZE = off / BSIZE
    · obtain ⟨rfl, hdiv⟩ := hsame
      have hslot : slot (s.write x buf).image (D j) (blockSlot (off / BSIZE)) = x :=
        (BitVec.eq_of_toNat_eq (haddr (j, blockSlot (off / BSIZE)))).trans hx
      have hlt : k % BSIZE < 512 := Nat.mod_lt _ (by decide)
      rw [fileByte, fileByte, hdiv, hslot, hx, image_write_self, byteAt_storeBytes _ _ _ _ hlt]
      simp only [div_of_mem_piece hdiv, true_and]
      split_ifs with hin
      · rw [hp, (div_of_lt_piece hin.1 hin.2).2, Nat.add_sub_cancel_left, Nat.add_sub_cancel' hin.1]
      · rfl
    · rw [if_neg fun hin => hsame ⟨hin.1, (div_of_lt_piece hin.2.1 hin.2.2).1⟩]
      refine fileByte_congr (haddr _) (image_write_of_ne fun heq => hsame ?_)
      have hinj := h.addr_inj hk (y := (i, blockSlot (off / BSIZE))) (heq.trans hx.symm)
      exact ⟨(Prod.mk.inj hinj).1, blockSlot_inj (Prod.mk.inj hinj).2⟩
  have hfull (k : ℕ) (hlo : off ≤ k) (hhi : k < off + piece off n) :
      addrOf D s.image (i, blockSlot (k / BSIZE)) ≠ 0 := by
    rwa [(div_of_lt_piece hlo hhi).1]
  refine ⟨fun j bn hk => by rwa [haddr], fun k hlo hhi => ?_, hold, fun k hlo hhi => ?_⟩
  · rw [haddr]
    exact hfull k hlo hhi
  · rw [hold i k (hfull k hlo hhi), if_pos ⟨rfl, hlo, hhi⟩]

theorem Put.sized {din' : Dinode} {val : ℕ → Byte} {lo hi size off' : ℕ} {image image' : Disk}
    (h : Put i val lo hi (update D i (sized din off)) image (update D i (sized din' off')) image') :
    Put i val lo hi (update D i (Mkfs.sized din off)) image
      (update D i (Mkfs.sized din' size)) image' := by
  have hbyte (j k : ℕ) : fileByte (update D i (Mkfs.sized din' size)) image' j k =
      fileByte (update D i (Mkfs.sized din' off')) image' j k :=
    fileByte_congr (addrOf_sized off' size _) rfl
  refine ⟨fun j bn hk => ?_, fun k hlo hhi => ?_, fun j k hk => ?_, fun k hlo hhi => ?_⟩
  · rw [addrOf_sized off' size]
    exact h.keep j bn hk
  · rw [addrOf_sized off' size]
    exact h.full k hlo hhi
  · rw [hbyte]
    exact h.old j k hk
  · rw [hbyte]
    exact h.new k hlo hhi

theorem blocksFor_mono {m : ℕ} (h : m ≤ n) : blocksFor m ≤ blocksFor n := by
  simp only [blocksFor, BSIZE, NDIRECT]
  split_ifs <;> omega

theorem Built.lacking_le (h : Built (update D i (sized din off)) s) (hn : n ≠ 0)
    (hoff : off < MAXFILE * BSIZE) :
    blocksFor off + lacking (update D i (sized din off)) s.image i (off / BSIZE) ≤
      blocksFor (off + piece off n) := by
  have hpos := piece_pos off hn
  have hlt : off < 71680 := hoff
  have hfull (bn : ℕ) (hbn : bn * BSIZE < off) :
      addrOf (update D i (sized din off)) s.image (i, blockSlot bn) ≠ 0 := by
    refine h.full i bn ?_
    rwa [update_self, sized, BitVec.toNat_ofNat, Nat.mod_eq_of_lt (by omega)]
  have hind (bn : ℕ) (hbn : bn * BSIZE < off) (hge : ¬ bn < NDIRECT) :
      addrOf (update D i (sized din off)) s.image (i, NDIRECT) ≠ 0 := by
    have hbn' := hfull bn hbn
    rw [ne_eq, addrOf_eq_zero_iff, blockSlot, if_neg hge] at hbn'
    rw [ne_eq, addrOf_eq_zero_iff, slot_last]
    exact fun h0 => hbn' (slot_of_zero (by omega) h0)
  by_cases hdirect : off / BSIZE < NDIRECT
  · rw [lacking_direct s.image hdirect]
    by_cases hmod : off % BSIZE = 0
    · simp only [blocksFor, BSIZE, NDIRECT] at hmod hdirect ⊢
      split_ifs <;> omega
    · have hfull' := hfull (off / BSIZE) (by simp only [BSIZE] at hmod ⊢; omega)
      rw [blockSlot, if_pos hdirect] at hfull'
      rw [if_neg hfull', Nat.add_zero]
      exact blocksFor_mono (Nat.le_add_right _ _)
  · rw [lacking_indirect s.image hdirect]
    by_cases hmod : off % BSIZE = 0
    · by_cases h12 : off / BSIZE = NDIRECT
      · simp only [blocksFor, BSIZE, NDIRECT] at hmod h12 ⊢
        split_ifs <;> omega
      · rw [if_neg (hind NDIRECT (by simp only [BSIZE, NDIRECT] at hdirect h12 ⊢; omega)
          (Nat.lt_irrefl _))]
        simp only [blocksFor, BSIZE, NDIRECT] at hmod hdirect ⊢
        split_ifs <;> omega
    · have hlt' : off / BSIZE * BSIZE < off := by
        simp only [BSIZE] at hmod ⊢
        omega
      have hfull' := hfull (off / BSIZE) hlt'
      rw [blockSlot, if_neg hdirect] at hfull'
      rw [if_neg hfull', if_neg (hind (off / BSIZE) hlt' hdirect)]
      exact blocksFor_mono (Nat.le_add_right _ _)

theorem iappendLoop_ends (val : ℕ → Byte) {p : Str} {fuel tot : ℕ}
    (h : Built (update D i (sized din off)) s) (htight : Tight (update D i (sized din off)) s.image)
    (hi : 1 ≤ i ∧ i < s.freeinode.toNat) (hfuel : n ≤ fuel) (hp : ∀ j, p (tot + j) = val (off + j)) :
    Ends (iappendLoop p fuel tot off n din) s
      (fun q s' => q.2 = off + n ∧ Built (update D i (sized q.1 (off + n))) s' ∧
        Tight (update D i (sized q.1 (off + n))) s'.image ∧
        q.1 = { din with addrs := q.1.addrs } ∧ s'.freeinode = s.freeinode ∧
        dinodes s'.image = dinodes s.image ∧
        s'.freeblock.toNat + blocksFor off ≤ s.freeblock.toNat + blocksFor (off + n) ∧
        Put i val off (off + n) (update D i (sized din off)) s.image
          (update D i (sized q.1 (off + n))) s'.image)
      (fun _ _ => MAXFILE * BSIZE < off + n ∨
        FSSIZE + blocksFor off < s.freeblock.toNat + blocksFor (off + n)) := by
  induction fuel generalizing s tot off n din with
  | zero =>
    obtain rfl : n = 0 := Nat.le_zero.mp hfuel
    exact ⟨rfl, h, htight, rfl, rfl, rfl, le_rfl,
      put_nothing i off val (fun _ _ _ => rfl) fun _ _ _ => rfl⟩
  | succ fuel ih =>
    rw [iappendLoop]
    by_cases hn : n = 0
    · rw [if_pos hn, hn]
      exact ⟨rfl, h, htight, rfl, rfl, rfl, le_rfl,
        put_nothing i off val (fun _ _ _ => rfl) fun _ _ _ => rfl⟩
    rw [if_neg hn]
    have hpos := piece_pos off hn
    have hle := piece_le off n
    split_ifs with hmax
    · refine ends_throw (.inl ?_)
      simp only [MAXFILE, BSIZE] at hmax ⊢
      omega
    have hturn : min n ((off / BSIZE + 1) * BSIZE - off) = piece off n := by
      simp only [piece, BSIZE]
      omega
    have hmax' : off / 512 < 140 := Nat.not_le.mp hmax
    have hlack := h.lacking_le hn (by simp only [MAXFILE, BSIZE]; omega)
    have hmono : blocksFor (off + piece off n) ≤ blocksFor (off + n) := blocksFor_mono (by omega)
    refine (iappendBlock_ends h hi (Nat.not_le.mp hmax)).bind_imp (fun e _ hE => .inr (by omega)) ?_
    rintro ⟨x, din'⟩ s₁ ⟨ht, hkind⟩
    dsimp only at ht hkind ⊢
    rw [hturn]
    have hnone (heq : x.toNat = FSSIZE) :
        FSSIZE + blocksFor off < s.freeblock.toNat + blocksFor (off + n) := by
      have hlt := ht.none heq
      omega
    refine (rsect_ends ht.sectors ht.le fun heq _ _ => .inr (hnone heq)).bind ?_
    rintro _ t ⟨hlt, rfl, hst⟩
    rw [hst]
    refine Ends.bind_of_eq (wsect_run ht.sectors hlt) ?_
    obtain ⟨haddr, hx0⟩ := ht.addr hlt
    obtain ⟨hge, hfb⟩ := ht.freeblock hlt
    have hslot : slot s₁.image (update D i (sized din' off) i)
        (blockSlot (off / BSIZE)) = x :=
      BitVec.eq_of_toNat_eq haddr
    have hput := ((ht.bytes hlt).move i off val).trans
      (put_write (n := n) val (ht.built hlt) hslot hx0 hp) le_rfl (Nat.le_add_right _ _)
    set buf := storeBytes (s₁.image x) (off - off / BSIZE * BSIZE) (piece off n)
      fun j => p (tot + j)
    have hwrite : Built (update D i (sized din' off)) (s₁.write x buf) :=
      (ht.built hlt).write hslot hx0
    have hne : addrOf (update D i (sized din' off)) s₁.image
        (i, blockSlot (off / BSIZE)) ≠ 0 := by
      rw [haddr]
      exact fun h0 => hx0 (BitVec.eq_of_toNat_eq h0)
    have hx1 : (57 : ℕ) ≤ x.toNat := by
      have hrange := (ht.built hlt).owned.range _ hne
      rw [haddr] at hrange
      exact le_trans (by decide) hrange.1
    have hi₁ : 1 ≤ i ∧ i < s₁.freeinode.toNat := ht.freeinode ▸ hi
    have hend : off + piece off n ≤ MAXFILE * BSIZE := by
      simp only [piece, MAXFILE, BSIZE]
      omega
    have hgrow := hwrite.grow (n := n) hi₁ hend ?_
    · have htight' : Tight (update D i (sized din' (off + piece off n)))
          (s₁.write x buf).image :=
        Tight.grow hn hend htight fun y hy hy12 =>
          ((ht.built hlt).addrOf_write hslot y).trans (ht.other hlt y hy hy12)
      have hsum : off + piece off n + (n - piece off n) = off + n := by omega
      refine (@ih _ (n - piece off n) _ _ (tot + piece off n) hgrow htight' hi₁ (by omega)
        fun j => ?_).mono ?_ ?_
      · rw [Nat.add_assoc, hp, Nat.add_assoc]
      · rintro ⟨din₂, off₂⟩ s₂ ⟨hoff, hbuilt, htight₂, hkind₂, hfi, hdin, hfb₂, hput₂⟩
        dsimp only at hoff hbuilt htight₂ hkind₂ hput₂
        rw [hsum] at hoff hbuilt htight₂ hfb₂ hput₂
        refine ⟨hoff, hbuilt, htight₂, ?_, hfi.trans ht.freeinode, ?_, ?_,
          hput.sized.trans hput₂ (Nat.le_add_right _ _) (by omega)⟩
        · rw [hkind₂, hkind]
        · rw [hdin, dinodes_write hx1, ht.dinodes]
        · change s₂.freeblock.toNat + _ ≤ s₁.freeblock.toNat + _ at hfb₂
          omega
      · rw [hsum]
        rintro e _ (hE | hE)
        · exact .inl hE
        · change FSSIZE + _ < s₁.freeblock.toNat + _ at hE
          exact .inr (by omega)
    · rwa [(ht.built hlt).addrOf_write hslot]

theorem Built.addrOf_congr (h : Built D s) (hdata : ∀ b, nmeta ≤ b → b < FSSIZE →
      image (BitVec.ofNat 32 b) = s.image (BitVec.ofNat 32 b)) (y : ℕ × ℕ) :
    addrOf D image y = addrOf D s.image y := by
  refine congrArg BitVec.toNat (slot_congr fun hne => ?_)
  have hy0 : addrOf D s.image (y.1, NDIRECT) ≠ 0 := by
    rwa [ne_eq, addrOf_eq_zero_iff, slot_last]
  obtain ⟨hlo, hhi⟩ := h.slot_range hy0
  rw [slot_last] at hlo hhi
  have hsame := hdata _ hlo hhi
  rwa [BitVec.ofNat_toNat, BitVec.setWidth_eq] at hsame

theorem Built.congr_image (h : Built D s) (hsuper : image 1 = s.image 1)
    (hdata : ∀ b, nmeta ≤ b → b < FSSIZE →
      image (BitVec.ofNat 32 b) = s.image (BitVec.ofNat 32 b)) :
    Built D { s with image := image } := by
  have haddr := h.addrOf_congr hdata
  refine ⟨h.sectors, (congrArg Superblock.ofBlock hsuper).trans h.super, h.range, h.inodes,
    h.unused, h.kinds, fun b hb hb' => ?_, h.owned.congr haddr fun _ _ _ => Iff.rfl, fun j bn hbn => ?_⟩
  · exact (hdata b (h.range.1.trans hb) hb').trans (h.blank b hb hb')
  · rw [haddr]
    exact h.full j bn hbn

theorem Built.congr_write (h : Built D s) {sec : Word} {buf : DiskBlock}
    (hsec : 1 < sec.toNat ∧ sec.toNat < nmeta) : Built D (s.write sec buf) := by
  refine h.congr_image (update_of_ne (fun heq => ?_) _ _)
    fun b hb hb' => update_of_ne (fun heq => ?_) _ _
  · rw [← heq] at hsec
    exact absurd hsec.1 (by decide)
  · rw [← heq, ofNat_toNat_of_lt hb'.le] at hsec
    omega

def State.store (s : State) (i : ℕ) (d : Dinode) : State :=
  s.write (sb.iblock i) (setDinode (s.image (sb.iblock i)) (i % IPB) d)

theorem iblock_lt_FSSIZE (hi : i < NINODES) : (sb.iblock i).toNat < FSSIZE :=
  (iblock_lt hi).2.trans (by decide)

theorem winode_run (hs : s.sectors = FSSIZE) (hi : i < NINODES) :
    (winode i d).run s = .ok () (s.store i d) := by
  rw [winode, bind_ok (rsect_run hs (iblock_lt_FSSIZE hi)), wsect_run hs (iblock_lt_FSSIZE hi)]
  rfl

theorem rinode_run (hs : s.sectors = FSSIZE) (hi : i < NINODES) :
    (rinode i).run s = .ok (dinodes s.image i) s := by
  rw [rinode, bind_ok (rsect_run hs (iblock_lt_FSSIZE hi)), dinodes, if_pos hi]
  rfl

theorem dinodes_store (hi : i < NINODES) :
    dinodes (s.store i d).image = update (dinodes s.image) i d := by
  funext j
  by_cases hj : j = i
  · rw [hj, update_self, dinodes, if_pos hi, State.store, image_write_self]
    exact getDinode_setDinode_self _ _ (Nat.mod_lt _ (by decide))
  rw [update_of_ne hj, dinodes, dinodes]
  split_ifs with hlt
  · by_cases hblock : sb.iblock j = sb.iblock i
    · rw [State.store, hblock, image_write_self]
      refine getDinode_setDinode_ne _ _ (Nat.mod_lt _ (by decide)) fun hmod => hj ?_
      have hnat := congrArg BitVec.toNat hblock
      have hi' : i < 200 := hi
      have hj' : j < 200 := hlt
      rw [Superblock.iblock, Superblock.iblock, show sb.inodestart.toNat = 32 from rfl,
        BitVec.toNat_ofNat, BitVec.toNat_ofNat] at hnat
      simp only [IPB] at hnat hmod
      omega
    · rw [State.store, image_write_of_ne hblock]
  · rfl

structure Settled (s : State) : Prop where
  built : Built (dinodes s.image) s
  tight : Tight (dinodes s.image) s.image

def State.byte (s : State) (i k : ℕ) : Byte := fileByte (dinodes s.image) s.image i k

theorem Built.addr_ne_zero (h : Built D s) {k : ℕ} (hk : k < (D i).size.toNat) :
    addrOf D s.image (i, blockSlot (k / BSIZE)) ≠ 0 :=
  h.full i _ ((Nat.div_mul_le_self k BSIZE).trans_lt hk)

theorem ofNat_ne_iblock (hi : i < NINODES) {b : ℕ} (hb : nmeta ≤ b) (hb' : b < FSSIZE) :
    BitVec.ofNat 32 b ≠ sb.iblock i := by
  have hhi := (iblock_lt hi).2
  intro heq
  have hnat := congrArg BitVec.toNat heq
  rw [ofNat_toNat_of_lt hb'.le] at hnat
  have hb59 : 59 ≤ b := hb
  omega

section Update

variable (h : Built (update (dinodes s.image) i d) s)
include h

theorem Built.store_built (hi : i < NINODES) :
    Built (dinodes (s.store i d).image) (s.store i d) := by
  obtain ⟨hlo, hhi⟩ := iblock_lt hi
  rw [dinodes_store hi]
  exact h.congr_write ⟨hlo, hhi.trans (by decide)⟩

theorem Built.store (htight : Tight (update (dinodes s.image) i d) s.image) (hi : i < NINODES) :
    Settled (s.store i d) := by
  refine ⟨h.store_built hi, fun j bn hbn => ?_⟩
  rw [dinodes_store hi] at hbn ⊢
  refine (h.addrOf_congr (fun b hb hb' => ?_) _).trans (htight j bn hbn)
  exact image_write_of_ne (ofNat_ne_iblock hi hb hb')

theorem Built.byte_store (hi : i < NINODES)
    {j k : ℕ} (hk : addrOf (update (dinodes s.image) i d) s.image
      (j, blockSlot (k / BSIZE)) ≠ 0) :
    (s.store i d).byte j k = fileByte (update (dinodes s.image) i d) s.image j k := by
  rw [State.byte, dinodes_store hi]
  refine fileByte_congr (h.addrOf_congr (fun b hb hb' => ?_) _) (image_write_of_ne ?_)
  · exact image_write_of_ne (ofNat_ne_iblock hi hb hb')
  · obtain ⟨hlo, hhi⟩ := h.slot_range hk
    have hne := ofNat_ne_iblock hi hlo hhi
    rwa [BitVec.ofNat_toNat, BitVec.setWidth_eq] at hne

end Update

theorem sized_self (d : Dinode) : sized d d.size.toNat = d := by
  rw [sized, BitVec.ofNat_toNat, BitVec.setWidth_eq]

theorem Built.size_le (h : Built D s) (i : ℕ) : (D i).size.toNat ≤ MAXFILE * BSIZE := by
  by_contra hgt
  simp only [MAXFILE, BSIZE] at hgt
  refine h.full i MAXFILE ?_ (congrArg BitVec.toNat (slot_of_gt ?_))
  · simp only [MAXFILE, BSIZE]
    omega
  · show NDIRECT + NINDIRECT < blockSlot MAXFILE
    decide

structure Appended (i n : ℕ) (p : Str) (s s' : State) : Prop where
  settled : Settled s'
  freeinode : s'.freeinode = s.freeinode
  others : ∀ j ≠ i, dinodes s'.image j = dinodes s.image j
  kind : dinodes s'.image i = { dinodes s.image i with
    size := (dinodes s'.image i).size, addrs := (dinodes s'.image i).addrs }
  size : (dinodes s'.image i).size.toNat = (dinodes s.image i).size.toNat + n
  old : ∀ j k, k < (dinodes s.image j).size.toNat → s'.byte j k = s.byte j k
  new : ∀ k < n, s'.byte i ((dinodes s.image i).size.toNat + k) = p k

theorem Appended.refl (h : Settled s) (p : Str) : Appended i 0 p s s :=
  ⟨h, rfl, fun _ _ => rfl, rfl, rfl, fun _ _ _ => rfl, fun k hk => absurd hk (Nat.not_lt_zero k)⟩

theorem Appended.trans {s'' : State} {m : ℕ} {p q r : Str} (h : Appended i n p s s')
    (h' : Appended i m q s' s'') (hp : ∀ k < n, r k = p k) (hq : ∀ k < m, r (n + k) = q k) :
    Appended i (n + m) r s s''  where
  settled := h'.settled
  freeinode := h'.freeinode.trans h.freeinode
  others j hj := (h'.others j hj).trans (h.others j hj)
  kind := by
    rw [h'.kind, h.kind]
  size := by rw [h'.size, h.size, Nat.add_assoc]
  old j k hk := by
    have hk' : k < (dinodes s'.image j).size.toNat := by
      by_cases hj : j = i
      · rw [hj] at hk ⊢
        rw [h.size]
        exact Nat.lt_add_right n hk
      · rwa [h.others j hj]
    rw [h'.old j k hk', h.old j k hk]
  new k hk := by
    by_cases hkn : k < n
    · rw [h'.old i _ (by rw [h.size]; omega), h.new k hkn, hp k hkn]
    · have hnew := h'.new (k - n) (by omega)
      rw [h.size, Nat.add_assoc, Nat.add_sub_cancel' (Nat.not_lt.mp hkn)] at hnew
      rw [hnew, ← hq (k - n) (by omega), Nat.add_sub_cancel' (Nat.not_lt.mp hkn)]

theorem iappend_ends (h : Settled s) (hi : 1 ≤ i ∧ i < s.freeinode.toNat) {p : Str}
    (hn : n ≤ BSIZE) :
    Ends (iappend i p n) s
      (fun _ s' => Appended i n p s s' ∧
        s'.freeblock.toNat + blocksFor (dinodes s.image i).size.toNat ≤
          s.freeblock.toNat + blocksFor ((dinodes s.image i).size.toNat + n))
      (fun _ _ => MAXFILE * BSIZE < (dinodes s.image i).size.toNat + n ∨
        FSSIZE + blocksFor (dinodes s.image i).size.toNat <
          s.freeblock.toNat + blocksFor ((dinodes s.image i).size.toNat + n)) := by
  have hlt : i < NINODES := hi.2.trans_le h.built.inodes.2
  refine Ends.bind_of_eq (rinode_run h.built.sectors hlt) ?_
  set old := (dinodes s.image i).size.toNat with hold
  have hself : update (dinodes s.image) i (sized (dinodes s.image i) old) =
      dinodes s.image := by
    rw [hold, sized_self, update_eq_self]
  have hb : Built (update (dinodes s.image) i (sized (dinodes s.image i) old)) s := by
    rw [hself]
    exact h.built
  refine (iappendLoop_ends (fun k => p (k - old)) hb (by rw [hself]; exact h.tight) hi le_rfl
    fun j => by rw [Nat.zero_add, Nat.add_sub_cancel_left]).bind ?_
  rintro ⟨din, off⟩ s₁ ⟨hoff, hbuilt, htight, hkind, hfi, hdin, hfb, hput⟩
  dsimp only at hoff hbuilt htight hkind hput
  rw [hself] at hput
  rw [← hoff, ← hdin] at hbuilt htight
  have hstore := hbuilt.store htight hlt
  have hle : old ≤ 71680 := h.built.size_le i
  have hn' : n ≤ 512 := hn
  have hdinodes : dinodes (s₁.store i (sized din off)).image i = sized din off := by
    rw [dinodes_store hlt, update_self]
  -- the bytes that `iappendLoop` leaves, with the inode written
  have hbyte (j k : ℕ) (hk : addrOf (update (dinodes s.image) i (sized din off)) s₁.image
      (j, blockSlot (k / BSIZE)) ≠ 0) : (s₁.store i (sized din off)).byte j k =
      fileByte (update (dinodes s.image) i (sized din off)) s₁.image j k := by
    rw [← hdin] at hk ⊢
    exact hbuilt.byte_store hlt hk
  rw [← hoff] at hput
  show Ends (winode i (sized din off)) s₁ _ _
  refine ends_of_ok (winode_run hbuilt.sectors hlt)
    ⟨⟨hstore, hfi, fun j hj => ?_, ?_, ?_, fun j k hk => ?_, fun k hk => ?_⟩, hfb⟩
  · rw [dinodes_store hlt, update_of_ne hj, hdin]
  · rw [hdinodes, sized, hkind]
  · rw [hdinodes, sized, hoff, BitVec.toNat_ofNat, Nat.mod_eq_of_lt (by omega)]
  · have haddr := h.built.addr_ne_zero hk
    rw [hbyte j k (hput.keep j _ haddr), hput.old j k haddr, if_neg, State.byte]
    rintro ⟨rfl, hge, -⟩
    exact absurd hk (Nat.not_lt.mpr hge)
  · rw [hbyte i _ (hput.full _ (Nat.le_add_right _ _) (by omega)),
      hput.new _ (Nat.le_add_right _ _) (by omega), Nat.add_sub_cancel_left]

theorem ialloc_returns (h : Settled s) (hfi : s.freeinode.toNat < NINODES)
    {type : Short} (htype : type ≠ 0) :
    Returns (ialloc type) s fun i s' => i = s.freeinode.toNat ∧ Settled s' ∧
      s'.freeinode.toNat = s.freeinode.toNat + 1 ∧ s'.freeblock = s.freeblock ∧
      dinodes s'.image =
        update (dinodes s.image) i { Dinode.zero with type := type, nlink := 1 } ∧
      ∀ j k, k < (dinodes s.image j).size.toNat → s'.byte j k = s.byte j k := by
  set d : Dinode := { Dinode.zero with type := type, nlink := 1 } with hd
  set i := s.freeinode.toNat with hidef
  set s₁ : State := { s with freeinode := s.freeinode + 1 } with hs₁
  have hb := h.built
  have hnext : s₁.freeinode.toNat = i + 1 := by
    have hlt : i < 200 := hfi
    rw [hs₁, BitVec.toNat_add, show (1 : Word).toNat = 1 from rfl]
    omega
  have hzero : dinodes s.image i = Dinode.zero := hb.unused i (.inr le_rfl)
  have hsize (j : ℕ) :
      (update (dinodes s.image) i d j).size = (dinodes s.image j).size := by
    by_cases hj : j = i
    · rw [hj, update_self, hzero]
    · rw [update_of_ne hj]
  have haddr (x : ℕ × ℕ) : addrOf (update (dinodes s.image) i d) s.image x =
      addrOf (dinodes s.image) s.image x := by
    by_cases hx : x.1 = i
    · rw [addrOf, addrOf, hx, update_self, hzero]
      rfl
    · rw [addrOf_update_of_ne hx]
  have hbuilt : Built (update (dinodes s₁.image) i d) s₁ := by
    refine ⟨hb.sectors, hb.super, hb.range, ?_, fun j hj => ?_, fun j hj hj' => ?_, hb.blank,
      hb.owned.congr haddr fun _ _ _ => Iff.rfl, fun j bn hbn => ?_⟩
    · rw [hnext]
      exact ⟨Nat.succ_pos i, hfi⟩
    · have hpos := hb.inodes.1
      have hne : j ≠ i := by omega
      rw [update_of_ne hne]
      exact hb.unused j (by omega)
    · by_cases hji : j = i
      · rw [hji, update_self]
        exact htype
      · rw [update_of_ne hji]
        exact hb.kinds j hj (by omega)
    · rw [show s₁.image = s.image from rfl, hsize] at hbn
      exact (haddr (j, blockSlot bn)).symm ▸ hb.full j bn hbn
  have htight : Tight (update (dinodes s₁.image) i d) s₁.image := fun j bn hbn => by
    rw [show s₁.image = s.image from rfl, hsize] at hbn
    exact (haddr (j, blockSlot bn)).trans (h.tight j bn hbn)
  have hset : (set s₁ : M Unit).run s = .ok () s₁ := rfl
  refine returns_get_bind (Returns.bind_of_eq hset ?_)
  refine Returns.bind_of_eq (winode_run hb.sectors hfi) (returns_pure ?_)
  refine ⟨rfl, hbuilt.store htight hfi, hnext, rfl, dinodes_store hfi, fun j k hk => ?_⟩
  have hk0 := hb.addr_ne_zero hk
  rw [← haddr] at hk0
  exact (hbuilt.byte_store hfi hk0).trans (fileByte_congr (haddr _) rfl)

theorem ofList_drop (l : List Byte) (n k : ℕ) : ofList (l.drop n) k = ofList l (n + k) := by
  rw [ofList, ofList, List.getD_eq_getElem?_getD, List.getD_eq_getElem?_getD, List.getElem?_drop]

theorem appendContents_ends (h : Settled s) (hi : 1 ≤ i ∧ i < s.freeinode.toNat)
    {fuel : ℕ} {data : List Byte} (hfuel : data.length ≤ fuel) :
    Ends (appendContents i fuel data) s
      (fun _ s' => Appended i data.length (ofList data) s s' ∧
        s'.freeblock.toNat + blocksFor (dinodes s.image i).size.toNat ≤
          s.freeblock.toNat + blocksFor ((dinodes s.image i).size.toNat + data.length))
      (fun _ _ => MAXFILE * BSIZE < (dinodes s.image i).size.toNat + data.length ∨
        FSSIZE + blocksFor (dinodes s.image i).size.toNat <
          s.freeblock.toNat + blocksFor ((dinodes s.image i).size.toNat + data.length)) := by
  induction fuel generalizing s data with
  | zero =>
    obtain rfl : data = [] := List.eq_nil_of_length_eq_zero (Nat.le_zero.mp hfuel)
    exact ⟨.refl h _, le_rfl⟩
  | succ fuel ih =>
    rw [appendContents]
    by_cases hdata : data = []
    · rw [if_pos hdata, hdata]
      exact ends_pure ⟨.refl h _, le_rfl⟩
    rw [if_neg hdata]
    have hpos : 0 < data.length := List.length_pos_iff.mpr hdata
    have hdrop : (data.drop BSIZE).length = data.length - BSIZE := List.length_drop
    have hsum : min data.length BSIZE + (data.drop BSIZE).length = data.length := by
      rw [hdrop]
      simp only [BSIZE]
      omega
    have hmono : blocksFor ((dinodes s.image i).size.toNat + min data.length BSIZE) ≤
        blocksFor ((dinodes s.image i).size.toNat + data.length) :=
      blocksFor_mono (Nat.add_le_add_left (Nat.min_le_left _ _) _)
    refine (iappend_ends h hi (Nat.min_le_right _ _)).bind_imp (fun _ _ hE => ?_) ?_
    · rcases hE with hE | hE
      · exact .inl (hE.trans_le (Nat.add_le_add_left (Nat.min_le_left _ _) _))
      · exact .inr (by omega)
    rintro _ s₁ ⟨happ, hfb⟩
    have hrest := @ih s₁ happ.settled (happ.freeinode.symm ▸ hi) (data.drop BSIZE)
      (by rw [hdrop]; simp only [BSIZE]; omega)
    rw [happ.size, Nat.add_assoc, hsum] at hrest
    refine hrest.mono ?_ ?_
    · rintro _ s₂ ⟨happ₂, hfb₂⟩
      have htrans := happ.trans (r := ofList data) happ₂ (fun _ _ => rfl) fun k hk => ?_
      · rw [hsum] at htrans
        exact ⟨htrans, by omega⟩
      · have hlong : min data.length BSIZE = BSIZE := by
          rw [hdrop] at hk
          omega
        rw [ofList_drop, hlong]
    · rintro e _ (hE | hE)
      · exact .inl hE
      · exact .inr (by omega)

end Built

end Xv6Prng.Mkfs
