import Xv6Prng.OnDisk
import Xv6Prng.Log

/-!
# Blocks, inodes and files of `fs.c`

The block allocator, the inode cache and the contents of files, over the flat store that the
buffer cache is: `bread` returns the contents of a block, and a changed buffer is passed to
`log_write` at once. One process runs at a time. `panic` stops the run, and so does a wait that
nobody can end. There is one device.

`lh` has the blocks of the open transaction, and the ghost `committed` those of the
transactions before.
-/

namespace Xv6Prng.FileSys

open ByteWords Halting Fs

abbrev NINODE : ℕ := 50
abbrev NDEV : ℕ := 10

instance neZero_NINODE : NeZero NINODE := ⟨by decide⟩

/-- An entry of the inode cache. The copy of the disk inode is meant only if `valid`. -/
structure Inode where
  inum : ℕ
  ref : ℕ
  busy : Bool
  valid : Bool
  copy : Dinode

/-- The functions of the devices: what they read or write, or -1. -/
structure Devsw where
  read : ℕ → Option (Word → Option (List Byte))
  write : ℕ → Option ((ℕ → Byte) → Word → Option ℕ)

structure State where
  disk : Disk
  sb : Superblock
  icache : Fin NINODE → Inode
  devsw : Devsw
  logSize : ℕ
  outstanding : ℕ
  lh : List Word
  committed : List (List Word)

abbrev M := EStateM Halt State

def bread (b : Word) : M DiskBlock := do
  let s ← get
  if FSSIZE ≤ b.toNat then throw (.panic "incorrect blockno") else return s.disk b

def logWrite (b : Word) (data : DiskBlock) : M Unit := do
  let s ← get
  if s.lh.length ≥ LOGSIZE ∨ s.lh.length ≥ s.logSize - 1 then
    throw (.panic "too big a transaction")
  else if s.outstanding < 1 then throw (.panic "log_write outside of trans")
  else set { s with
    disk := Function.update s.disk b data
    lh := if b ∈ s.lh then s.lh else s.lh ++ [b] }

def beginOp : M Unit := do
  let s ← get
  if s.lh.length + (s.outstanding + 1) * MAXOPBLOCKS > LOGSIZE then throw .asleep
  else set { s with outstanding := s.outstanding + 1 }

def endOp : M Unit := do
  let s ← get
  if s.outstanding = 1 then
    set { s with outstanding := 0, lh := [], committed := s.committed ++ [s.lh] }
  else set { s with outstanding := s.outstanding - 1 }

def readsb : M Unit := do
  let bp ← bread 1
  modify fun s => { s with sb := .ofBlock bp }

def bzero (bno : Word) : M Unit := do
  let _ ← bread bno
  logWrite bno fun _ => 0

def ballocFrom : ℕ → ℕ → M Word
  | _, 0 => throw (.panic "balloc: out of blocks")
  | b, n + 1 => do
    let s ← get
    let bp ← bread (s.sb.bblock b)
    if bitSet bp (b % BPB) then ballocFrom (b + 1) n
    else do
      logWrite (s.sb.bblock b) (markBit bp (b % BPB))
      bzero (BitVec.ofNat 32 b)
      return BitVec.ofNat 32 b

def balloc : M Word := do
  let s ← get
  ballocFrom 0 s.sb.size.toNat

def bfree (b : Word) : M Unit := do
  readsb
  let s ← get
  let bp ← bread (s.sb.bblock b.toNat)
  if bitSet bp (b.toNat % BPB) then
    logWrite (s.sb.bblock b.toNat) (clearBit bp (b.toNat % BPB))
  else throw (.panic "freeing free block")

def setInode (ip : Fin NINODE) (x : Inode) : M Unit :=
  modify fun s => { s with icache := Function.update s.icache ip x }

def setCopy (ip : Fin NINODE) (d : Dinode) : M Unit := do
  let s ← get
  setInode ip { s.icache ip with copy := d }

def iget (inum : ℕ) : M (Fin NINODE) := do
  let s ← get
  match (List.finRange NINODE).find? fun k =>
      0 < (s.icache k).ref ∧ (s.icache k).inum = inum with
  | some k => do
    setInode k { s.icache k with ref := (s.icache k).ref + 1 }
    return k
  | none =>
    match (List.finRange NINODE).find? fun k => (s.icache k).ref = 0 with
    | some k => do
      setInode k { s.icache k with inum := inum, ref := 1, busy := false, valid := false }
      return k
    | none => throw (.panic "iget: no inodes")

def iupdate (ip : Fin NINODE) : M Unit := do
  let s ← get
  let x := s.icache ip
  let bp ← bread (s.sb.iblock x.inum)
  logWrite (s.sb.iblock x.inum) (setDinode bp (x.inum % IPB) x.copy)

def idup (ip : Fin NINODE) : M (Fin NINODE) := do
  let s ← get
  setInode ip { s.icache ip with ref := (s.icache ip).ref + 1 }
  return ip

def ilock (ip : Fin NINODE) : M Unit := do
  let s ← get
  let x := s.icache ip
  if x.ref < 1 then throw (.panic "ilock")
  else if x.busy then throw .asleep
  else if x.valid then setInode ip { x with busy := true }
  else do
    let bp ← bread (s.sb.iblock x.inum)
    let d := getDinode bp (x.inum % IPB)
    setInode ip { x with busy := true, valid := true, copy := d }
    if d.type = 0 then throw (.panic "ilock: no type")

def iunlock (ip : Fin NINODE) : M Unit := do
  let s ← get
  let x := s.icache ip
  if x.busy = false ∨ x.ref < 1 then throw (.panic "iunlock")
  else setInode ip { x with busy := false }

def setAddr (ip : Fin NINODE) (k : Fin (NDIRECT + 1)) (b : Word) : M Unit := do
  let s ← get
  setCopy ip ((s.icache ip).copy.setAddr k b)

def bmapDirect (ip : Fin NINODE) (k : Fin (NDIRECT + 1)) : M Word := do
  let s ← get
  let addr := (s.icache ip).copy.addrs k
  if addr = 0 then do
    let b ← balloc
    setAddr ip k b
    return b
  else return addr

def bmapEntry (ind : Word) (l : ℕ) : M Word := do
  let bp ← bread ind
  let addr := loadWord bp l
  if addr = 0 then do
    let b ← balloc
    logWrite ind (storeWord bp l b)
    return b
  else return addr

def bmap (ip : Fin NINODE) (bn : ℕ) : M Word :=
  if h : bn < NDIRECT then bmapDirect ip ⟨bn, Nat.lt_succ_of_lt h⟩
  else if bn - NDIRECT < NINDIRECT then do
    let ind ← bmapDirect ip (Fin.last NDIRECT)
    bmapEntry ind (bn - NDIRECT)
  else throw (.panic "bmap: out of range")

def itruncDirect (ip : Fin NINODE) (k : ℕ) (_ : Unit) : M Unit := do
  let s ← get
  let addr := (s.icache ip).copy.addrs (Fin.ofNat (NDIRECT + 1) k)
  if addr = 0 then return ()
  else do
    bfree addr
    setAddr ip (Fin.ofNat (NDIRECT + 1) k) 0

def itruncEntry (bp : DiskBlock) (j : ℕ) (_ : Unit) : M Unit :=
  if loadWord bp j = 0 then return () else bfree (loadWord bp j)

def itruncIndirect (ip : Fin NINODE) : M Unit := do
  let s ← get
  let addr := (s.icache ip).copy.addrs (Fin.last NDIRECT)
  if addr = 0 then return ()
  else do
    let bp ← bread addr
    forLoop (itruncEntry bp) 0 NINDIRECT ()
    bfree addr
    setAddr ip (Fin.last NDIRECT) 0

def itrunc (ip : Fin NINODE) : M Unit := do
  forLoop (itruncDirect ip) 0 NDIRECT ()
  itruncIndirect ip
  let s ← get
  setCopy ip { (s.icache ip).copy with size := 0 }
  iupdate ip

def ifree (ip : Fin NINODE) : M Unit := do
  let s ← get
  if (s.icache ip).busy then throw (.panic "iput busy")
  else do
    setInode ip { s.icache ip with busy := true }
    itrunc ip
    let s ← get
    setCopy ip { (s.icache ip).copy with type := 0 }
    iupdate ip
    let s ← get
    setInode ip { s.icache ip with busy := false, valid := false }

def dropRef (ip : Fin NINODE) : M Unit := do
  let s ← get
  setInode ip { s.icache ip with ref := (s.icache ip).ref - 1 }

def iput (ip : Fin NINODE) : M Unit := do
  let s ← get
  let x := s.icache ip
  if x.ref = 1 ∧ x.valid = true ∧ x.copy.nlink = 0 then do
    ifree ip
    dropRef ip
  else dropRef ip

def iunlockput (ip : Fin NINODE) : M Unit := do
  iunlock ip
  iput ip

def major? (d : Dinode) : Option ℕ :=
  if d.major.toInt < 0 ∨ d.major.toInt ≥ NDEV then none else some d.major.toNat

/-- The loop of `readi`: `n` bytes are left, and every turn copies at least one. -/
def readLoop (ip : Fin NINODE) : ℕ → ℕ → ℕ → M (List Byte)
  | 0, _, _ => return []
  | fuel + 1, off, n => do
    if n = 0 then return []
    else do
      let addr ← bmap ip (off / BSIZE)
      let bp ← bread addr
      let m := min n (BSIZE - off % BSIZE)
      let rest ← readLoop ip fuel (off + m) (n - m)
      return (List.range m).map (fun j => byteAt bp (off % BSIZE + j)) ++ rest

def readi (ip : Fin NINODE) (off n : Word) : M (Option (List Byte)) := do
  let s ← get
  let d := (s.icache ip).copy
  if d.type = T_DEV then return (((major? d).bind s.devsw.read).bind (· n))
  else if off > d.size ∨ off + n < off then return none
  else do
    let n := if off + n > d.size then d.size - off else n
    let bytes ← readLoop ip n.toNat off.toNat n.toNat
    return some bytes

def writeLoop (ip : Fin NINODE) (src : ℕ → Byte) : ℕ → ℕ → ℕ → ℕ → M Unit
  | 0, _, _, _ => return ()
  | fuel + 1, tot, off, n => do
    if n = 0 then return ()
    else do
      let addr ← bmap ip (off / BSIZE)
      let bp ← bread addr
      let m := min n (BSIZE - off % BSIZE)
      logWrite addr (storeBytes bp (off % BSIZE) m fun j => src (tot + j))
      writeLoop ip src fuel (tot + m) (off + m) (n - m)

def writei (ip : Fin NINODE) (src : ℕ → Byte) (off n : Word) : M (Option ℕ) := do
  let s ← get
  let d := (s.icache ip).copy
  if d.type = T_DEV then return (((major? d).bind s.devsw.write).bind (· src n))
  else if off > d.size ∨ off + n < off then return none
  else if (off + n).toNat > MAXFILE * BSIZE then return none
  else do
    writeLoop ip src n.toNat 0 off.toNat n.toNat
    let s ← get
    let d := (s.icache ip).copy
    if n > 0 ∧ off + n > d.size then do
      setCopy ip { d with size := off + n }
      iupdate ip
      return some n.toNat
    else return some n.toNat

end Xv6Prng.FileSys
