import Xv6Prng.BufferCache
import Xv6Prng.Library.RedoLog

/-!
# The log of `log.c`

A transaction collects in `log.lh` the numbers of the blocks it changes, which stay dirty
in the cache. `commit` copies them to the log area, writes the header, copies the blocks
home and erases the header; `recover_from_log` does the last two steps over again after a
crash.

The writes of several system calls in one transaction are one list of operations here,
since `log_write` does not tell them apart; `log.committing` and the waiting in `begin_op`
are left out.
-/

namespace Xv6Prng.Fs

open ByteWords Halting RedoLog Function

abbrev LOGSIZE : ℕ := 30
abbrev MAXOPBLOCKS : ℕ := 10

structure Log where
  start : Word
  size : ℕ
  pos : 0 < size
  fits : start.toNat + size ≤ FSSIZE

def headerCount (h : DiskBlock) : ℤ := (loadWord h 0).toInt

def headerBlocks (h : DiskBlock) : List Word :=
  (List.range (headerCount h).toNat).map fun i => loadWord h (1 + i)

def storeBlocks (lh : List Word) (h : DiskBlock) : ℕ → DiskBlock
  | 0 => storeWord h 0 (BitVec.ofNat 32 lh.length)
  | n + 1 => storeWord (storeBlocks lh h n) (1 + n) (lh.getD n 0)

def encodeHeader (lh : List Word) (h : DiskBlock) : DiskBlock := storeBlocks lh h lh.length

section Header

variable (lh : List Word) (h : DiskBlock) {n : ℕ}

theorem loadWord_storeBlocks_zero (hn : n < 128) :
    loadWord (storeBlocks lh h n) 0 = BitVec.ofNat 32 lh.length := by
  induction n with
  | zero => exact loadWord_storeWord_self h _ (by omega)
  | succ n ih =>
    rw [storeBlocks, loadWord_storeWord_ne _ _ (by omega) (by omega)]
    exact ih (by omega)

theorem loadWord_storeBlocks_succ (hn : n < 128) {i : ℕ} (hi : i < n) :
    loadWord (storeBlocks lh h n) (1 + i) = lh.getD i 0 := by
  induction n with
  | zero => exact absurd hi (Nat.not_lt_zero i)
  | succ n ih =>
    rw [storeBlocks]
    by_cases hin : i = n
    · rw [hin]
      exact loadWord_storeWord_self _ _ (by omega)
    · rw [loadWord_storeWord_ne _ _ (by omega) (by omega)]
      exact ih (by omega) (by omega)

theorem headerBlocks_encodeHeader (hlh : lh.length < 128) :
    headerBlocks (encodeHeader lh h) = lh := by
  have hcount : (headerCount (encodeHeader lh h)).toNat = lh.length := by
    rw [headerCount, encodeHeader, loadWord_storeBlocks_zero lh h hlh]
    have hnat : (BitVec.ofNat 32 lh.length).toNat = lh.length := by
      rw [BitVec.toNat_ofNat]
      omega
    rw [BitVec.toInt_eq_toNat_of_lt (by omega), hnat, Int.toNat_natCast]
  apply List.ext_getElem
  · simp [headerBlocks, hcount]
  · intro i h₁ h₂
    simp only [headerBlocks, List.getElem_map, List.getElem_range]
    rw [encodeHeader, loadWord_storeBlocks_succ lh h hlh h₂, List.getD_eq_getElem _ _ h₂]

end Header

namespace Log

variable (L : Log)

def slot (tail : ℕ) : Word := L.start + BitVec.ofNat 32 tail + 1

def area : Set Word := {b | L.start.toNat ≤ b.toNat ∧ b.toNat < L.start.toNat + L.size}

def blocks (d : Disk) : List Word := headerBlocks (d L.start)

def format : Format Word DiskBlock := ⟨L.start, L.slot, headerBlocks⟩

end Log

def copyData (dst src : Fin NBUF) : FsM Unit := do
  let m ← get
  setData dst (m.bufs src).data

def installBlock (L : Log) (tail : ℕ) (_ : Unit) : FsM Unit := do
  let m ← get
  let lbuf ← bread (L.slot tail)
  let dbuf ← bread (m.lh.getD tail 0)
  copyData dbuf lbuf
  bwrite dbuf
  brelse lbuf
  brelse dbuf

def installTrans (L : Log) : FsM Unit := do
  let m ← get
  forLoop (installBlock L) 0 m.lh.length ()

/-- `read_head`. A count above `LOGSIZE` makes it write past the end of `log.lh.block`. -/
def readHead (L : Log) : FsM Unit := do
  let buf ← bread L.start
  let m ← get
  if headerCount (m.bufs buf).data > LOGSIZE then throw .overflow
  else do
    modify fun m => { m with lh := headerBlocks (m.bufs buf).data }
    brelse buf

def writeHead (L : Log) : FsM Unit := do
  let buf ← bread L.start
  let m ← get
  setData buf (encodeHeader m.lh (m.bufs buf).data)
  bwrite buf
  brelse buf

def recoverFromLog (L : Log) : FsM Unit := do
  readHead L
  installTrans L
  modify fun m => { m with lh := [] }
  writeHead L

def writeLogBlock (L : Log) (tail : ℕ) (_ : Unit) : FsM Unit := do
  let m ← get
  let toBuf ← bread (L.slot tail)
  let fromBuf ← bread (m.lh.getD tail 0)
  copyData toBuf fromBuf
  bwrite toBuf
  brelse fromBuf
  brelse toBuf

def writeLog (L : Log) : FsM Unit := do
  let m ← get
  forLoop (writeLogBlock L) 0 m.lh.length ()

def commit (L : Log) : FsM Unit := do
  let m ← get
  if m.lh.length > 0 then do
    writeLog L
    writeHead L
    installTrans L
    modify fun m => { m with lh := [] }
    writeHead L
  else pure ()

instance decidableLogged (b : Word) (lh : List Word) : Decidable (b ∈ lh) :=
  decidable_of_iff _ List.elem_iff

def logWrite (L : Log) (i : Fin NBUF) : FsM Unit := do
  let m ← get
  if m.lh.length ≥ LOGSIZE ∨ m.lh.length ≥ L.size - 1 then
    throw (.panic "too big a transaction")
  else if m.outstanding < 1 then throw (.panic "log_write outside of trans")
  else
    let blockno := (m.bufs i).blockno.getD 0
    set { m with
      -- a block that is logged already keeps its place
      lh := if blockno ∈ m.lh then m.lh else m.lh ++ [blockno]
      bufs := Function.update m.bufs i { m.bufs i with dirty := true } }

def beginOp : FsM Unit := do
  let m ← get
  if m.lh.length + (m.outstanding + 1) * MAXOPBLOCKS > LOGSIZE then throw .asleep
  else set { m with outstanding := m.outstanding + 1 }

def endOp (L : Log) : FsM Unit := do
  modify fun m => { m with outstanding := m.outstanding - 1 }
  let m ← get
  if m.outstanding = 0 then commit L else pure ()

/-- What a system call does between `begin_op` and `end_op`: it reads blocks, and changes
the contents of blocks through `log_write`. -/
inductive Op
  | read (b : Word)
  | write (b : Word) (f : DiskBlock → DiskBlock)

def runOp (L : Log) : Op → FsM Unit
  | .read b => do
    let i ← bread b
    brelse i
  | .write b f => do
    let i ← bread b
    let m ← get
    setData i (f (m.bufs i).data)
    logWrite L i
    brelse i

def runOps (L : Log) : List Op → FsM Unit
  | [] => pure ()
  | op :: ops => do
    runOp L op
    runOps L ops

def transaction (L : Log) (ops : List Op) : FsM Unit := do
  beginOp
  runOps L ops
  endOp L

def boot (disk : Disk) : Machine where
  disk := disk
  bufs := fun _ => ⟨none, false, false, false, fun _ => 0⟩
  mru := (List.finRange NBUF).reverse
  lh := []
  outstanding := 0
  crashDisks := [disk]

structure Loggable (L : Log) (bs : List Word) : Prop where
  nodup : bs.Nodup
  fits : bs.length < L.size
  bound : bs.length ≤ LOGSIZE
  home : ∀ b ∈ bs, b ∉ L.area ∧ b.toNat < FSSIZE

theorem loggable_nil (L : Log) : Loggable L [] :=
  ⟨List.nodup_nil, L.pos, Nat.zero_le _, fun _ hb => absurd hb List.not_mem_nil⟩

section Area

variable {L : Log} {bs : List Word} {t : ℕ}

theorem Log.start_mem (L : Log) : L.start ∈ L.area := ⟨le_rfl, by have := L.pos; omega⟩

theorem Log.lt_fssize {b : Word} (h : b ∈ L.area) : b.toNat < FSSIZE := h.2.trans_le L.fits

theorem Log.toNat_slot (h : t + 1 < L.size) : (L.slot t).toNat = L.start.toNat + t + 1 := by
  have hfits : L.start.toNat + L.size ≤ 1000 := L.fits
  have hone : (1 : Word).toNat = 1 := rfl
  rw [Log.slot, BitVec.toNat_add, BitVec.toNat_add, BitVec.toNat_ofNat, hone]
  omega

theorem Log.slot_mem (h : t + 1 < L.size) : L.slot t ∈ L.area := by
  have hslot := Log.toNat_slot h
  constructor <;> omega

theorem Log.slot_ne_start (h : t + 1 < L.size) : L.slot t ≠ L.start := by
  intro heq
  have hslot := Log.toNat_slot h
  rw [heq] at hslot
  omega

theorem Log.slot_ne_slot {i : ℕ} (hi : i + 1 < L.size) (ht : t + 1 < L.size) (hne : i ≠ t) :
    L.slot i ≠ L.slot t := by
  intro heq
  have h₁ := Log.toNat_slot hi
  have h₂ := Log.toNat_slot ht
  rw [heq] at h₁
  omega

theorem Loggable.notMem (h : Loggable L bs) {b : Word} (hb : b ∈ L.area) : b ∉ bs :=
  fun hm => (h.home b hm).1 hb

theorem Loggable.apart {d : Disk} (h : Loggable L (L.blocks d)) : L.format.Apart d := by
  intro b hb
  have hout : b ∉ L.area := (h.home b hb).1
  refine ⟨fun heq => hout (heq ▸ L.start_mem), fun i hi heq => hout ?_⟩
  rw [heq]
  exact Log.slot_mem ((Nat.succ_le_of_lt hi).trans_lt h.fits)

theorem Log.length_entries (d : Disk) :
    (L.format.entries d).length = (L.blocks d).length := List.length_mapIdx

theorem Log.entries_getElem (d : Disk) (ht : t < (L.blocks d).length)
    (h : t < (L.format.entries d).length) :
    (L.format.entries d)[t] = ((L.blocks d)[t], d (L.slot t)) := by
  simp [Format.entries, Log.format, Log.blocks]

end Area

structure GotTwo (m : Machine) (view : Disk) (dirty : Finset Word) (a b : Word)
    (i j : Fin NBUF) (m' : Machine) : Prop extends SameDisk m m' where
  cached : Cached m' view dirty {i, j}
  first : (m'.bufs i).blockno = some a
  second : (m'.bufs j).blockno = some b

section Copy

variable {m : Machine} {view : Disk} {dirty : Finset Word} {a b : Word}

theorem SameDisk.trans {m' m'' : Machine} (h : SameDisk m m') (h' : SameDisk m' m'') :
    SameDisk m m'' :=
  ⟨h'.disk.trans h.disk, h'.lh.trans h.lh, h'.outstanding.trans h.outstanding,
    h'.crashDisks.trans h.crashDisks⟩

theorem Wrote.comp {m₁ m₂ m₃ : Machine} {data : DiskBlock} (hw : Wrote m₁ b data m₂)
    (h : SameDisk m m₁) (h' : SameDisk m₂ m₃) : Wrote m b data m₃ where
  disk := by rw [h'.disk, hw.disk, h.disk]
  lh := by rw [h'.lh, hw.lh, h.lh]
  outstanding := by rw [h'.outstanding, hw.outstanding, h.outstanding]
  crashDisks := by rw [h'.crashDisks, hw.crashDisks, h.crashDisks, h'.disk]

theorem not_full_empty : ¬ NBUF ≤ (∅ : Finset Word).card := by simp

theorem Cached.bread_first (h : Cached m view dirty ∅) (hb : b.toNat < FSSIZE) :
    Ends (Fs.bread b) m (Got m view dirty ∅ b) fun _ m' =>
      m'.crashDisks = m.crashDisks ∧ NBUF ≤ dirty.card := by
  refine (h.bread (by simp)).mono (fun _ _ hg => hg) fun _ m' hstop => ⟨hstop.1, ?_⟩
  by_contra hcard
  exact hstop.2 ⟨hb, Or.inr (h.spare (by simpa using hcard))⟩

theorem Cached.bread_two (h : Cached m view dirty ∅) (hab : a ≠ b) (ha : a.toNat < FSSIZE)
    (hb : b.toNat < FSSIZE) (hroom : b ∈ dirty ∨ dirty.card + 1 < NBUF)
    {f : Fin NBUF → Fin NBUF → FsM Unit} {Q : Unit → Machine → Prop} {E : Halt → Machine → Prop}
    (hf : ∀ i j m', GotTwo m view dirty a b i j m' → Ends (f i j) m' Q E)
    (hE : ∀ e m', m'.crashDisks = m.crashDisks → NBUF ≤ dirty.card → E e m') :
    Ends (Fs.bread a >>= fun i => Fs.bread b >>= f i) m Q E := by
  refine (h.bread_first ha).bind_imp (fun e m' hstop => hE e m' hstop.1 hstop.2) fun i m₁ hi => ?_
  have hfree : ∀ j ∈ insert i (∅ : Finset (Fin NBUF)), (m₁.bufs j).blockno ≠ some b := by
    intro j hj
    rw [insert_empty_eq, Finset.mem_singleton] at hj
    rw [hj, hi.blockno]
    exact fun heq => hab (Option.some.inj heq)
  have hspace : Room m₁ dirty (insert i ∅) b := by
    cases hroom with
    | inl hdirty => exact Or.inl (hi.cached.cached b hdirty)
    | inr hcard => exact Or.inr (hi.cached.spare (by simpa using hcard))
  refine (hi.cached.bread hfree).bind_imp (fun e m' hstop => absurd ⟨hb, hspace⟩ hstop.2)
    fun j m₂ hj => ?_
  refine hf i j m₂ ⟨hi.toSameDisk.trans hj.toSameDisk, ?_, ?_, hj.blockno⟩
  · rw [Finset.pair_comm]
    exact hj.cached
  · rw [hj.others i (Finset.mem_insert_self i ∅)]
    exact hi.blockno

theorem Cached.copy {held : Finset (Fin NBUF)} {i j : Fin NBUF} (h : Cached m view dirty held)
    (hheld : held = {i, j}) (hi : (m.bufs i).blockno = some a) (hj : (m.bufs j).blockno = some b)
    (hab : a ≠ b) (hclean : a ∉ dirty → view a = m.disk a) :
    Returns (do Fs.copyData j i; Fs.bwrite j; Fs.brelse i; Fs.brelse j) m fun _ m' =>
      Wrote m b (view a) m' ∧ Cached m' (update view b (view a)) (dirty \ {b}) ∅ := by
  have hiheld : i ∈ held := by simp [hheld]
  have hjheld : j ∈ held := by simp [hheld]
  have hij : i ≠ j := by
    rintro rfl
    exact hab (Option.some.inj (hi.symm.trans hj))
  have hcopy : Returns (Fs.copyData j i) m fun _ m' => SameDisk m m' ∧
      Cached m' (update view b (view a)) dirty held ∧
      ∀ k, (m'.bufs k).blockno = (m.bufs k).blockno := by
    have hset := h.setData hjheld hj (m.bufs i).data
    rw [((h.buf i).data a hi).2.1] at hset
    apply returns_get_bind
    rwa [((h.buf i).data a hi).2.1]
  refine hcopy.bind fun _ m₁ ⟨hsame, hc₁, hb₁⟩ => ?_
  refine (hc₁.bwrite hjheld ((hb₁ j).trans hj)).bind fun _ m₂ ⟨hw, hc₂, hb₂⟩ => ?_
  rw [update_self] at hw
  have hdisk : a ∉ dirty \ {b} → update view b (view a) a = m₂.disk a := by
    intro ha
    rw [update_of_ne hab, hw.disk, update_of_ne hab, hsame.disk]
    exact hclean fun hm => ha (by simp [hm, hab])
  refine (hc₂.brelse hiheld (((hb₂ i).trans (hb₁ i)).trans hi) hdisk).bind
    fun _ m₃ ⟨hsame₃, hc₃, hb₃⟩ => ?_
  have hjheld₃ : j ∈ held \ {i} := by simp [hheld, hij.symm]
  refine (hc₃.brelse hjheld₃ ((((hb₃ j).trans (hb₂ j)).trans (hb₁ j)).trans hj) ?_).mono
    fun _ m₄ ⟨hsame₄, hc₄, _⟩ => ?_
  · intro _
    rw [update_self, hsame₃.disk, hw.disk, update_self]
  · have hempty : (held \ {i}) \ {j} = ∅ := by
      rw [hheld]
      ext k
      simp
      tauto
    rw [hempty] at hc₄
    exact ⟨hw.comp hsame (hsame₃.trans hsame₄), hc₄⟩

end Copy

section Head

variable {L : Log} {m : Machine} {view : Disk} {dirty : Finset Word}

theorem Cached.writeOut {b : Word} {i : Fin NBUF} (h : Cached m view dirty (insert i ∅))
    (hi : (m.bufs i).blockno = some b) (data : DiskBlock) :
    Returns (do Fs.setData i data; Fs.bwrite i; Fs.brelse i) m fun _ m' =>
      Wrote m b data m' ∧ Cached m' (update view b data) (dirty \ {b}) ∅ := by
  have hheld : i ∈ insert i (∅ : Finset (Fin NBUF)) := Finset.mem_insert_self i ∅
  refine (h.setData hheld hi data).bind fun _ m₁ ⟨hsame, hc₁, hb₁⟩ => ?_
  refine (hc₁.bwrite hheld ((hb₁ i).trans hi)).bind fun _ m₂ ⟨hw, hc₂, hb₂⟩ => ?_
  rw [update_self] at hw
  refine (hc₂.brelse hheld (((hb₂ i).trans (hb₁ i)).trans hi) ?_).mono fun _ m₃ ⟨hs, hc₃, _⟩ => ?_
  · intro _
    rw [update_self, hw.disk, update_self]
  · rw [insert_empty_eq, Finset.sdiff_self] at hc₃
    exact ⟨hw.comp hsame hs, hc₃⟩

theorem writeHead_ends (h : Cached m view dirty ∅) (hstart : L.start ∉ dirty) :
    Ends (writeHead L) m
      (fun _ m' => Wrote m L.start (encodeHeader m.lh (view L.start)) m' ∧
        ∃ view', Cached m' view' dirty ∅)
      fun _ m' => m'.crashDisks = m.crashDisks ∧ NBUF ≤ dirty.card := by
  refine (h.bread_first (Log.lt_fssize L.start_mem)).bind fun i m₁ hi => ?_
  apply ends_get_bind
  have hdata : (m₁.bufs i).data = view L.start := ((hi.cached.buf i).data _ hi.blockno).2.1
  rw [hdata, hi.lh]
  refine ((hi.cached.writeOut hi.blockno _).mono fun _ m' ⟨hw, hc⟩ => ?_).ends
  rw [Finset.sdiff_singleton_eq_erase, Finset.erase_eq_of_notMem hstart] at hc
  exact ⟨hw.comp hi.toSameDisk ⟨rfl, rfl, rfl, rfl⟩, _, hc⟩

theorem readHead_ends (h : Cached m view ∅ ∅) (hlog : Loggable L (L.blocks m.disk)) :
    Ends (readHead L) m
      (fun _ m' => Cached m' view ∅ ∅ ∧ m'.disk = m.disk ∧ m'.lh = L.blocks m.disk ∧
        m'.outstanding = m.outstanding ∧ m'.crashDisks = m.crashDisks)
      fun _ _ => False := by
  refine (h.bread_first (Log.lt_fssize L.start_mem)).bind_imp
    (fun _ _ hstop => absurd hstop.2 not_full_empty) fun i m₁ hi => ?_
  apply ends_get_bind
  have hview : view L.start = m.disk L.start := h.rest _ (by simp) (by simp)
  have hdata : (m₁.bufs i).data = m.disk L.start :=
    ((hi.cached.buf i).data _ hi.blockno).2.1.trans hview
  have hcount : ¬ headerCount (m.disk L.start) > LOGSIZE := by
    have hbound := hlog.bound
    rw [Log.blocks, headerBlocks, List.length_map, List.length_range] at hbound
    omega
  rw [hdata, if_neg hcount]
  apply ends_modify_bind
  have hc : Cached { m₁ with lh := headerBlocks (m₁.bufs i).data } view ∅ (insert i ∅) :=
    ⟨hi.cached.order, hi.cached.unique, hi.cached.buf, hi.cached.cached, hi.cached.rest⟩
  refine ((hc.brelse (Finset.mem_insert_self i ∅) hi.blockno ?_).mono
    fun _ m' ⟨hs, hc', _⟩ => ?_).ends
  · intro _
    exact hview.trans (congrFun hi.disk.symm _)
  · rw [insert_empty_eq, Finset.sdiff_self] at hc'
    refine ⟨hc', hs.disk.trans hi.disk, hs.lh.trans ?_, hs.outstanding.trans hi.outstanding,
      hs.crashDisks.trans hi.crashDisks⟩
    exact congrArg headerBlocks hdata

end Head

end Xv6Prng.Fs
