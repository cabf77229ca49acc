import Xv6Prng.Library.LinkedQueue
import Xv6Prng.Library.Runs
import Xv6Prng.SharedBuffers

/-!
# The disk drivers `ide.c` and `memide.c`

Any number of processes call `iderw` while the disk works and interrupts. A critical section
under `idelock` is one step, a command that the disk carries out is another, and so is the
interrupt that reports it. A block is one sector. `B_BUSY` gives a buffer to one process: while
a call of `iderw` is under way no other process calls it on the same buffer.

The ghosts `requested`, `started` and `completed` list the requests in the order in which they
are queued, given to the disk and reported; `completed` also says what the buffer and disk 1
held at that moment, and `returned` what each call returned.
-/

namespace Xv6Prng.Ide

open Runs Function
open Fs (DiskBlock FSSIZE)
open Fs.Shared (Buf)

abbrev SECTOR_SIZE : ℕ := 512
abbrev BSIZE : ℕ := 512
abbrev IDE_BSY : Byte := 0x80
abbrev IDE_DRDY : Byte := 0x40
abbrev IDE_DF : Byte := 0x20
abbrev IDE_ERR : Byte := 0x01
abbrev IDE_CMD_READ : Byte := 0x20
abbrev IDE_CMD_WRITE : Byte := 0x30
abbrev IDE_CMD_RDMUL : Byte := 0xc4
abbrev IDE_CMD_WRMUL : Byte := 0xc5

abbrev Blocks := ℕ → DiskBlock

/-- The registers that name a sector, the command that is being carried out, and the buffer
behind the data port. -/
structure Device where
  lba0 : Byte
  lba1 : Byte
  lba2 : Byte
  drive : Byte
  command : Option Byte
  buffer : DiskBlock
  irq : Bool
  err : Bool

namespace Device

variable (d : Device)

def idle : Device := ⟨0, 0, 0, 0xe0, none, fun _ => 0, false, false⟩

def status : Byte :=
  if d.command.isSome then IDE_BSY else if d.err then IDE_DRDY ||| IDE_ERR else IDE_DRDY

def sector : ℕ :=
  d.lba0.toNat + 2 ^ 8 * d.lba1.toNat + 2 ^ 16 * d.lba2.toNat + 2 ^ 24 * (d.drive &&& 0x0f).toNat

def selected : Bool := d.drive.getLsbD 4

/-- The disk carries out its command, or fails to, and raises its interrupt line. -/
def complete (err : Bool) (disks : Bool → Blocks) : Device × (Bool → Blocks) :=
  match d.command with
  | none => (d, disks)
  | some c =>
    let d' := { d with command := none, irq := true, err := err }
    if err then (d', disks)
    else if c = IDE_CMD_WRITE ∨ c = IDE_CMD_WRMUL then
      (d', Function.update disks d.selected
        (Function.update (disks d.selected) d.sector d.buffer))
    else ({ d' with buffer := disks d.selected d.sector }, disks)

end Device

namespace Memide

def iderw (disksize : ℕ) (b : Buf) (memdisk : Blocks) : Except String (Buf × Blocks) :=
  if b.busy = false then throw "iderw: buf not busy"
  else if b.valid = true ∧ b.dirty = false then throw "iderw: nothing to do"
  else if b.dev ≠ 1 then throw "iderw: request not for disk 1"
  else if b.blockno.toNat ≥ disksize then throw "iderw: block out of range"
  else if b.dirty then
    pure ({ b with dirty := false, valid := true },
      Function.update memdisk b.blockno.toNat b.data)
  else pure ({ b with data := memdisk b.blockno.toNat, valid := true }, memdisk)

end Memide

def sectorPerBlock : ℕ := BSIZE / SECTOR_SIZE

def readCmd : Byte := if sectorPerBlock = 1 then IDE_CMD_READ else IDE_CMD_RDMUL

def writeCmd : Byte := if sectorPerBlock = 1 then IDE_CMD_WRITE else IDE_CMD_WRMUL

/-- What `idewait` returns; nothing if it finds the disk busy and spins. -/
def idewait (checkerr : Bool) (d : Device) : Option ℤ :=
  if d.status &&& (IDE_BSY ||| IDE_DRDY) ≠ IDE_DRDY then none
  else if checkerr = true ∧ d.status &&& (IDE_DF ||| IDE_ERR) ≠ 0 then some (-1)
  else some 0

def Device.issue (d : Device) (b : Buf) : Device :=
  let sector : Word := b.blockno * BitVec.ofNat 32 sectorPerBlock
  { d with
    lba0 := (sector &&& 0xff).setWidth 8
    lba1 := (sector.sshiftRight 8 &&& 0xff).setWidth 8
    lba2 := (sector.sshiftRight 16 &&& 0xff).setWidth 8
    drive := (0xe0 ||| ((b.dev &&& 1) <<< 4) ||| (sector.sshiftRight 24 &&& 0x0f)).setWidth 8
    command := some (if b.dirty then writeCmd else readCmd)
    buffer := if b.dirty then b.data else d.buffer }

/-- Where a process is. A process in `iderw` carries the place of its request in the order of
the requests. -/
inductive Pc (β : Type)
  | outside
  | calling (i : β)
  | sleeping (i : β) (t : ℕ)
  | ready (i : β) (t : ℕ)
  deriving DecidableEq

def Pc.buf {β : Type} : Pc β → Option β
  | .outside => none
  | .calling i => some i
  | .sleeping i _ => some i
  | .ready i _ => some i

def Pc.waiting {β : Type} : Pc β → Option (β × ℕ)
  | .sleeping i t => some (i, t)
  | .ready i t => some (i, t)
  | _ => none

/-- The machine stops at a panic; `stuck` is a loop that would not end. -/
inductive Status
  | running
  | panic (msg : String)
  | stuck
  deriving DecidableEq

/-- A request that has been reported: the buffer as it was handed in and as it is now, and
what disk 1 holds. -/
structure Completion (β : Type) where
  buf : β
  before : Buf
  after : Buf
  disk : Blocks

def Completion.request {β : Type} (c : Completion β) : β × Buf := (c.buf, c.before)

structure System (n : ℕ) (β : Type) where
  bufs : β → Buf
  queue : LinkedQueue β
  havedisk1 : Bool
  device : Device
  disks : Bool → Blocks
  procs : Fin n → Pc β
  status : Status
  requested : List (β × Buf)
  started : List β
  completed : List (Completion β)
  returned : List (ℕ × Buf)

def System.boot (n : ℕ) {β : Type} (bufs : β → Buf) (disks : Bool → Blocks) : System n β where
  bufs := bufs
  queue := ⟨none, fun _ => none⟩
  havedisk1 := true
  device := Device.idle
  disks := disks
  procs _ := .outside
  status := .running
  requested := []
  started := []
  completed := []
  returned := []

/-- `call p i b`: process `p` calls `iderw` on buffer `i`, which it has filled with `b`.
`kill p` wakes a process that sleeps, as `kill` does; `complete` and `irq` are the disk's. -/
inductive Action (n : ℕ) (β : Type)
  | call (p : Fin n) (i : β) (b : Buf)
  | step (p : Fin n)
  | kill (p : Fin n)
  | complete (err : Bool)
  | irq

namespace System

variable {n : ℕ} {β : Type} [DecidableEq β] [Fintype β] (s : System n β) (p : Fin n) (i : β)

omit [DecidableEq β] [Fintype β] in
def stop (msg : String) : System n β := { s with status := .panic msg }

omit [DecidableEq β] [Fintype β] in
def spin : System n β := { s with status := .stuck }

omit [DecidableEq β] [Fintype β] in
def goto (pc : Pc β) : System n β := { s with procs := Function.update s.procs p pc }

def setBuf (b : Buf) : System n β := { s with bufs := Function.update s.bufs i b }

def wake : Pc β → Pc β
  | .sleeping j t => if j = i then .ready j t else .sleeping j t
  | pc => pc

def wakeup : System n β := { s with procs := fun q => wake i (s.procs q) }

def idestart : Option β → System n β
  | none => s.stop "idestart"
  | some i =>
    if (s.bufs i).blockno.toNat ≥ FSSIZE then s.stop "incorrect blockno"
    else if sectorPerBlock > 7 then s.stop "idestart"
    else
      match idewait false s.device with
      | none => s.spin
      | some _ =>
        { s with device := s.device.issue (s.bufs i), started := s.started ++ [i] }

/-- The buffer after `if(!(b->flags & B_DIRTY) && idewait(1) >= 0) insl(...)`. -/
def received (d : Device) (b : Buf) : Option Buf :=
  if b.dirty then some b
  else (idewait true d).map fun r => if r ≥ 0 then { b with data := d.buffer } else b

def report (b : Buf) : System n β :=
  { (s.setBuf i b).wakeup i with
    queue := s.queue.pop i
    completed := s.completed ++ [⟨i, s.bufs i, b, s.disks true⟩] }

def ideintr : System n β :=
  match s.queue.head with
  | none => s
  | some i =>
    match received s.device (s.bufs i) with
    | none => s.spin
    | some b =>
      let s := s.report i { b with valid := true, dirty := false }
      if s.queue.head ≠ none then s.idestart s.queue.head else s

def await (t : ℕ) : System n β :=
  if (s.bufs i).valid = true ∧ (s.bufs i).dirty = false then
    { s.goto p .outside with returned := s.returned ++ [(t, s.bufs i)] }
  else s.goto p (.sleeping i t)

def enqueue : System n β :=
  match s.queue.append i with
  | none => s.spin
  | some q =>
    let s := { s with queue := q, requested := s.requested ++ [(i, s.bufs i)] }
    if s.queue.head = some i then s.idestart (some i) else s

def iderw : System n β :=
  if (s.bufs i).busy = false then s.stop "iderw: buf not busy"
  else if (s.bufs i).valid = true ∧ (s.bufs i).dirty = false then s.stop "iderw: nothing to do"
  else if (s.bufs i).dev ≠ 0 ∧ s.havedisk1 = false then
    s.stop "iderw: ide disk 1 not present"
  else
    let s' := s.enqueue i
    if s'.status = .running then s'.await p i s.requested.length else s'

def Free : Prop := ∀ q, (s.procs q).buf ≠ some i

instance : Decidable (s.Free i) := inferInstanceAs (Decidable (∀ _, _))

def act (s : System n β) (a : Action n β) : System n β :=
  if s.status = .running then
    match a with
    | .call p i b =>
      if s.procs p = .outside ∧ s.Free i then ((s.setBuf i b).goto p (.calling i)).iderw p i
      else s
    | .step p =>
      match s.procs p with
      | .ready i t => s.await p i t
      | _ => s
    | .kill p =>
      match s.procs p with
      | .sleeping i t => s.goto p (.ready i t)
      | _ => s
    | .complete err =>
      { s with device := (s.device.complete err s.disks).1,
               disks := (s.device.complete err s.disks).2 }
    | .irq =>
      if s.device.irq then { s with device := { s.device with irq := false } }.ideintr else s
  else s

end System

structure Requestable (b : Buf) : Prop where
  busy : b.busy = true
  dev : b.dev = 1
  blockno : b.blockno.toNat < FSSIZE

def Allowed {n : ℕ} {β : Type} (_ : System n β) : Action n β → Prop
  | .call _ _ b => Requestable b
  | .complete err => err = false
  | _ => True

/-- The device is at work on the request of `b`, or has carried it out; `m` is disk 1 before
the request. -/
inductive Working (d : Device) (disk : Blocks) (b : Buf) (m : Blocks) : Prop
  | issued (hcmd : d.command = some (if b.dirty then writeCmd else readCmd))
      (hirq : d.irq = false) (hdrive : d.selected = true)
      (hsector : d.sector = b.blockno.toNat) (hdata : b.dirty = true → d.buffer = b.data)
      (hdisk : disk = m)
  | carriedOut (hcmd : d.command = none) (hirq : d.irq = true) (herr : d.err = false)
      (hdata : b.dirty = false → d.buffer = m b.blockno.toNat)
      (hdisk : disk = if b.dirty then Function.update m b.blockno.toNat b.data else m)

def Serves (d : Device) (disk m : Blocks) : Option Buf → Prop
  | none => d.command = none ∧ d.irq = false ∧ disk = m
  | some b => Working d disk b m

/-- Each completion is a call of the synchronous driver on what the one before it left. -/
def Served {β : Type} (disksize : ℕ) : Blocks → List (Completion β) → Prop
  | _, [] => True
  | m, c :: cs => Memide.iderw disksize c.before m = .ok (c.after, c.disk) ∧
      Served disksize c.disk cs

def diskAfter {β : Type} (m : Blocks) (cs : List (Completion β)) : Blocks :=
  (cs.getLast?.map Completion.disk).getD m

variable {n : ℕ} {β : Type}

/-- A process in `iderw` waits for a request of the queue, or its request has been reported and
its buffer is as the report left it. -/
def Waits (s : System n β) (pending : List β) (i : β) (t : ℕ) : Prop :=
  s.completed.length ≤ t ∧ pending[t - s.completed.length]? = some i

def Done (s : System n β) (pending : List β) (i : β) (t : ℕ) : Prop :=
  i ∉ pending ∧ ∃ c, s.completed[t]? = some c ∧ c.buf = i ∧ c.after = s.bufs i

/-- The requests and the processes that wait for them; `pending` is the queue, and the disk of
`memide.c` has `disksize` blocks and held `m` at the start. -/
structure Ledger (disksize : ℕ) (m : Blocks) (s : System n β) (pending : List β) : Prop where
  queue : s.queue.Represents pending
  requested : s.requested =
    s.completed.map Completion.request ++ pending.map fun i => (i, s.bufs i)
  served : Served disksize m s.completed
  returned : ∀ t b, (t, b) ∈ s.returned → ∃ c, s.completed[t]? = some c ∧ c.after = b
  sleeping : ∀ p i t, s.procs p = .sleeping i t → Waits s pending i t
  ready : ∀ p i t, s.procs p = .ready i t → Waits s pending i t ∨ Done s pending i t
  waited : ∀ i ∈ pending, ∃ p, (s.procs p).buf = some i
  requestable : ∀ i ∈ pending, Requestable (s.bufs i)
  todo : ∀ i ∈ pending, ¬ ((s.bufs i).valid = true ∧ (s.bufs i).dirty = false)
  havedisk1 : s.havedisk1 = true

structure Refines (disksize : ℕ) (m : Blocks) (s : System n β) (pending : List β) : Prop
    extends Ledger disksize m s pending where
  started : s.started = s.completed.map Completion.buf ++ pending.take 1
  working : Serves s.device (s.disks true) (diskAfter m s.completed) (pending.head?.map s.bufs)
  not_stuck : s.status ≠ .stuck
  panics : ∀ msg, s.status = .panic msg → ∃ p i, s.procs p = .calling i ∧
    Memide.iderw disksize (s.bufs i) (diskAfter m s.completed) = .error msg

namespace Device

variable {d : Device} {b : Buf}

theorem toNat_lowByte (x : Word) : ((x &&& 0xff).setWidth 8 : Byte).toNat = x.toNat % 2 ^ 8 := by
  have hmask : (0xff : Word).toNat = 2 ^ 8 - 1 := rfl
  rw [BitVec.toNat_setWidth, BitVec.toNat_and, hmask, Nat.and_two_pow_sub_one_eq_mod, Nat.mod_mod]

theorem toNat_sshiftRight {x : Word} (hx : x.toNat < FSSIZE) (k : ℕ) :
    (x.sshiftRight k).toNat = x.toNat / 2 ^ k := by
  have hmsb : x.msb = false := by
    rw [BitVec.msb_eq_decide, decide_eq_false_iff_not]
    simp only [FSSIZE] at hx
    omega
  rw [BitVec.sshiftRight_eq_of_msb_false hmsb, BitVec.toNat_ushiftRight,
    Nat.shiftRight_eq_div_pow]

theorem drive_issue (hb : Requestable b) : (d.issue b).drive = 0xf0 := by
  have hzero : b.blockno.sshiftRight 24 = 0 := by
    apply BitVec.eq_of_toNat_eq
    rw [toNat_sshiftRight hb.blockno]
    exact Nat.div_eq_of_lt (hb.blockno.trans (by decide))
  have hsector : b.blockno * BitVec.ofNat 32 sectorPerBlock = b.blockno := BitVec.mul_one _
  simp only [issue, hsector, hzero, hb.dev]
  decide

theorem sector_issue (hb : Requestable b) : (d.issue b).sector = b.blockno.toNat := by
  have hlt := hb.blockno
  have hsector : b.blockno * BitVec.ofNat 32 sectorPerBlock = b.blockno := BitVec.mul_one _
  have hnibble : ((0xf0 : Byte) &&& 0x0f).toNat = 0 := by decide
  rw [sector, drive_issue hb, hnibble]
  simp only [issue, hsector, toNat_lowByte, toNat_sshiftRight hlt]
  simp only [FSSIZE] at hlt
  omega

theorem working_issue (hirq : d.irq = false) (hb : Requestable b) (m : Blocks) :
    Working (d.issue b) m b m := by
  refine .issued rfl hirq ?_ (sector_issue hb) ?_ rfl
  · rw [selected, drive_issue hb]
    decide
  · intro hdirty
    simp only [issue, hdirty, if_true]

theorem idewait_of_idle (hcmd : d.command = none) : idewait false d = some 0 := by
  cases herr : d.err <;> simp [idewait, status, hcmd, herr]

theorem idewait_of_ok (hcmd : d.command = none) (herr : d.err = false) :
    idewait true d = some 0 := by
  simp [idewait, status, hcmd, herr]

end Device

theorem writeCmd_ne_readCmd : ¬ (readCmd = IDE_CMD_WRITE ∨ readCmd = IDE_CMD_WRMUL) := by decide

theorem Working.complete {d : Device} {disks : Bool → Blocks} {b : Buf} {m : Blocks}
    (h : Working d (disks true) b m) :
    Working (d.complete false disks).1 ((d.complete false disks).2 true) b m := by
  cases h with
  | issued hcmd hirq hdrive hsector hdata hdisk =>
    cases hdirty : b.dirty with
    | true =>
      have hwrite : writeCmd = IDE_CMD_WRITE ∨ writeCmd = IDE_CMD_WRMUL := Or.inl rfl
      rw [hdirty, if_pos rfl] at hcmd
      simp only [Device.complete, hcmd, hwrite, if_true, Bool.false_eq_true, if_false, hdrive,
        hsector, hdata hdirty]
      refine .carriedOut rfl rfl rfl (fun h => absurd (hdirty.symm.trans h) (by decide)) ?_
      rw [update_self, hdirty, if_pos rfl, hdisk]
    | false =>
      rw [hdirty, if_neg (by decide)] at hcmd
      simp only [Device.complete, hcmd, writeCmd_ne_readCmd, Bool.false_eq_true, if_false, hdrive,
        hsector]
      refine .carriedOut rfl rfl rfl (fun _ => by rw [hdisk]) ?_
      rw [hdirty, hdisk]
      rfl
  | carriedOut hcmd hirq herr hdata hdisk =>
    have hsame : d.complete false disks = (d, disks) := by rw [Device.complete, hcmd]
    rw [hsame]
    exact .carriedOut hcmd hirq herr hdata hdisk

theorem Serves.complete {d : Device} {disks : Bool → Blocks} {m : Blocks} {b : Option Buf}
    (h : Serves d (disks true) m b) :
    Serves (d.complete false disks).1 ((d.complete false disks).2 true) m b := by
  cases b with
  | none =>
    have hsame : d.complete false disks = (d, disks) := by rw [Device.complete, h.1]
    rw [hsame]
    exact h
  | some b => exact Working.complete h

namespace Memide

def synced (b : Buf) (m : Blocks) : Buf :=
  { b with
    data := if b.dirty then b.data else m b.blockno.toNat
    valid := true
    dirty := false }

theorem iderw_eq {disksize : ℕ} {b : Buf} (hsize : FSSIZE ≤ disksize) (hb : Requestable b)
    (htodo : ¬ (b.valid = true ∧ b.dirty = false)) (m : Blocks) :
    iderw disksize b m =
      .ok (synced b m, if b.dirty then update m b.blockno.toNat b.data else m) := by
  have hin : ¬ b.blockno.toNat ≥ disksize := by
    have := hb.blockno
    omega
  rw [iderw, if_neg (by simp [hb.busy]), if_neg htodo, if_neg (by simp [hb.dev]), if_neg hin]
  cases hdirty : b.dirty <;> simp [synced, hdirty, pure, Except.pure]

end Memide

theorem received_of_carriedOut {d : Device} {disk m : Blocks} {b : Buf}
    (h : Working d disk b m) (hirq : d.irq = true) :
    ∃ b', System.received { d with irq := false } b = some b' ∧
      { b' with valid := true, dirty := false } = Memide.synced b m := by
  cases h with
  | issued hcmd hlow => simp [hirq] at hlow
  | carriedOut hcmd _ herr hdata hdisk =>
    have hwait : idewait true { d with irq := false } = some 0 := Device.idewait_of_ok hcmd herr
    cases hdirty : b.dirty with
    | true => exact ⟨b, by rw [System.received, if_pos hdirty], by simp [Memide.synced, hdirty]⟩
    | false =>
      refine ⟨{ b with data := d.buffer }, ?_, ?_⟩
      · simp [System.received, hdirty, hwait]
      · simp [Memide.synced, hdirty, hdata hdirty]

theorem diskAfter_append (m : Blocks) (cs : List (Completion β)) (c : Completion β) :
    diskAfter m (cs ++ [c]) = c.disk := by simp [diskAfter]

variable {c : Completion β} {cs : List (Completion β)} {disksize : ℕ}

theorem served_append {m : Blocks} : Served disksize m (cs ++ [c]) ↔ Served disksize m cs ∧
      Memide.iderw disksize c.before (diskAfter m cs) = .ok (c.after, c.disk) := by
  induction cs generalizing m with
  | nil => simp [Served, diskAfter]
  | cons d cs ih =>
    have hlast : diskAfter m (d :: cs) = diskAfter d.disk cs := by
      cases cs <;> simp [diskAfter, List.getLast?_cons_cons]
      rfl
    rw [List.cons_append, Served, ih, Served, hlast, and_assoc]

theorem Memide.synced_of_ok {b b' : Buf} {m m' : Blocks}
    (h : Memide.iderw disksize b m = .ok (b', m')) : b'.valid = true ∧ b'.dirty = false := by
  unfold Memide.iderw at h
  split_ifs at h with _ _ _ _ hdirty
  · cases h
    exact ⟨rfl, rfl⟩
  · cases h
    exact ⟨rfl, Bool.eq_false_of_not_eq_true hdirty⟩

theorem Served.after {m : Blocks} (h : Served disksize m cs) (hc : c ∈ cs) :
    c.after.valid = true ∧ c.after.dirty = false := by
  induction cs generalizing m with
  | nil => cases hc
  | cons d cs ih =>
    rcases List.mem_cons.mp hc with rfl | hc
    · exact Memide.synced_of_ok h.1
    · exact ih h.2 hc

variable {disksize : ℕ} {m : Blocks} {s : System n β} {pending rest : List β}
  {p : Fin n} {i : β} {t : ℕ}

theorem Waits.mem (h : Waits s pending i t) : i ∈ pending := List.mem_of_getElem? h.2

section Refines

variable (h : Refines disksize m s pending)
include h

theorem Refines.complete :
    Refines disksize m { s with device := (s.device.complete false s.disks).1,
                                disks := (s.device.complete false s.disks).2 } pending :=
  { h with working := h.working.complete }

theorem Refines.move (hrun : s.status = .running) {pc : Pc β}
    (hbuf : (s.procs p).buf = some i) (hpc : pc.buf = some i ∨ i ∉ pending)
    (hsleep : ∀ j t, pc = .sleeping j t → Waits s pending j t)
    (hready : ∀ j t, pc = .ready j t → Waits s pending j t ∨ Done s pending j t) :
    Refines disksize m (s.goto p pc) pending where
  __ := h
  sleeping q j t hq := by
    rcases eq_or_ne q p with rfl | hne
    · exact hsleep j t (by simpa [System.goto] using hq)
    · exact h.sleeping q j t (by simpa [System.goto, hne] using hq)
  ready q j t hq := by
    rcases eq_or_ne q p with rfl | hne
    · exact hready j t (by simpa [System.goto] using hq)
    · exact h.ready q j t (by simpa [System.goto, hne] using hq)
  waited j hj := by
    obtain ⟨q, hq⟩ := h.waited j hj
    refine ⟨q, ?_⟩
    rcases eq_or_ne q p with rfl | hne
    · have hij : j = i := Option.some.inj (hq.symm.trans hbuf)
      rcases hpc with hpc | hpc
      · simpa [System.goto, hij] using hpc
      · exact absurd (hij ▸ hj) hpc
    · simpa [System.goto, hne] using hq
  panics msg hmsg := by
    rw [System.goto, hrun] at hmsg
    cases hmsg

theorem Refines.await (hrun : s.status = .running)
    (hbuf : (s.procs p).buf = some i) (hwait : Waits s pending i t ∨ Done s pending i t) :
    Refines disksize m (s.await p i t) pending := by
  rw [System.await]
  split_ifs with hflags
  · -- The flags say that the request has been reported.
    rcases hwait with hwait | ⟨hnot, c, hc, hci, hafter⟩
    · exact absurd hflags (h.todo i hwait.mem)
    · have hmove : Refines disksize m (s.goto p .outside) pending :=
        h.move hrun hbuf (Or.inr hnot) (by simp) (by simp)
      refine { hmove with returned := ?_ }
      intro u b hub
      rcases List.mem_append.mp hub with hub | hub
      · exact h.returned u b hub
      · rw [List.mem_singleton] at hub
        cases hub
        exact ⟨c, hc, hafter⟩
  · rcases hwait with hwait | ⟨_, c, hc, _, hafter⟩
    · refine h.move hrun hbuf (Or.inl rfl) ?_ (by simp)
      intro j u hju
      cases hju
      exact hwait
    · exact absurd (hafter ▸ h.served.after (List.mem_of_getElem? hc)) hflags

theorem Refines.kill (hrun : s.status = .running)
    (hp : s.procs p = .sleeping i t) : Refines disksize m (s.goto p (.ready i t)) pending := by
  refine h.move hrun (i := i) (by rw [hp]; rfl) (Or.inl rfl) (by simp) ?_
  intro j u hju
  cases hju
  exact Or.inl (h.sleeping p i t hp)

end Refines

theorem idestart_frame (s : System n β) (x : Option β) :
    (s.idestart x).requested = s.requested ∧ (s.idestart x).completed = s.completed ∧
      (s.idestart x).procs = s.procs := by
  cases x with
  | none => exact ⟨rfl, rfl, rfl⟩
  | some i =>
    rw [System.idestart]
    split_ifs
    · exact ⟨rfl, rfl, rfl⟩
    · exact ⟨rfl, rfl, rfl⟩
    · split <;> exact ⟨rfl, rfl, rfl⟩

theorem Ledger.start (h : Ledger disksize m s pending) (hrun : s.status = .running)
    (hstarted : s.started = s.completed.map Completion.buf) (hcmd : s.device.command = none)
    (hirq : s.device.irq = false) (hdisk : s.disks true = diskAfter m s.completed) :
    Refines disksize m (if s.queue.head ≠ none then s.idestart s.queue.head else s) pending ∧
      (if s.queue.head ≠ none then s.idestart s.queue.head else s).status = .running := by
  rw [h.queue.head_eq]
  cases pending with
  | nil =>
    rw [List.head?_nil, if_neg (by simp)]
    refine ⟨{ h with started := ?_, working := ⟨hcmd, hirq, hdisk⟩, not_stuck := ?_, panics := ?_ },
      hrun⟩
    · rw [hstarted, List.take_nil, List.append_nil]
    · rw [hrun]
      simp
    · rw [hrun]
      simp
  | cons i rest =>
    have hb : Requestable (s.bufs i) := h.requestable i List.mem_cons_self
    have hstart : s.idestart (some i) =
        { s with device := s.device.issue (s.bufs i), started := s.started ++ [i] } := by
      rw [System.idestart, if_neg (Nat.not_le.mpr hb.blockno), if_neg (by decide),
        Device.idewait_of_idle hcmd]
    rw [List.head?_cons, if_pos (by simp), hstart]
    refine ⟨{ h with started := ?_, working := ?_, not_stuck := ?_, panics := ?_ }, hrun⟩
    · simp [hstarted]
    · rw [hdisk]
      exact Device.working_issue hirq hb _
    · simp [hrun]
    · simp [hrun]

theorem buf_wake [DecidableEq β] (i : β) (pc : Pc β) : (System.wake i pc).buf = pc.buf := by
  cases pc with
  | outside => rfl
  | calling j => rfl
  | ready j t => rfl
  | sleeping j t =>
    rw [System.wake]
    split_ifs <;> rfl

theorem waiting_wake [DecidableEq β] (i : β) (pc : Pc β) :
    (System.wake i pc).waiting = pc.waiting := by
  cases pc with
  | outside => rfl
  | calling j => rfl
  | ready j t => rfl
  | sleeping j t =>
    rw [System.wake]
    split_ifs <;> rfl

theorem wake_eq_sleeping [DecidableEq β] {i j : β} {t : ℕ} {pc : Pc β} :
    System.wake i pc = .sleeping j t ↔ pc = .sleeping j t ∧ j ≠ i := by
  cases pc with
  | outside => simp [System.wake]
  | calling k => simp [System.wake]
  | ready k u => simp [System.wake]
  | sleeping k u =>
    rw [System.wake]
    split_ifs with hk
    · simp only [Pc.sleeping.injEq, false_iff, not_and, not_not]
      rintro ⟨rfl, rfl⟩
      exact hk
    · constructor
      · rintro ⟨rfl, rfl⟩
        exact ⟨rfl, hk⟩
      · rintro ⟨h, -⟩
        exact h

theorem wake_eq_ready [DecidableEq β] {i j : β} {t : ℕ} {pc : Pc β} :
    System.wake i pc = .ready j t ↔ pc = .ready j t ∨ pc = .sleeping j t ∧ j = i := by
  cases pc with
  | outside => simp [System.wake]
  | calling k => simp [System.wake]
  | ready k u => simp [System.wake]
  | sleeping k u =>
    rw [System.wake]
    split_ifs with hk
    · constructor
      · rintro ⟨rfl, rfl⟩
        exact Or.inr ⟨rfl, hk⟩
      · rintro (h | ⟨h, -⟩)
        · cases h
        · cases h
          rfl
    · simp only [Pc.sleeping.injEq, false_or, false_iff, not_and]
      rintro ⟨rfl, rfl⟩
      exact hk

section Interrupt

variable [DecidableEq β] {b : Buf} {j : β}

theorem Waits.report_self (h : Waits s (i :: rest) i t) (hi : i ∉ rest) :
    Done (s.report i b) rest i t := by
  obtain ⟨hle, hget⟩ := h
  have heq : s.completed.length = t := by
    by_contra hne
    obtain ⟨k, hk⟩ : ∃ k, t - s.completed.length = k + 1 :=
      ⟨t - s.completed.length - 1, by omega⟩
    rw [hk, List.getElem?_cons_succ] at hget
    exact hi (List.mem_of_getElem? hget)
  refine ⟨hi, ⟨i, s.bufs i, b, s.disks true⟩, ?_, rfl, ?_⟩
  · simp [System.report, heq]
  · simp [System.report, System.wakeup, System.setBuf]

theorem Waits.report_of_ne (h : Waits s (i :: rest) j t) (hne : j ≠ i) :
    Waits (s.report i b) rest j t := by
  obtain ⟨hle, hget⟩ := h
  rcases Nat.eq_or_lt_of_le hle with heq | hlt
  · rw [heq, Nat.sub_self, List.getElem?_cons_zero] at hget
    exact absurd (Option.some.inj hget).symm hne
  · have hlen : (s.report i b).completed.length = s.completed.length + 1 := by
      simp [System.report]
    obtain ⟨k, hk⟩ : ∃ k, t - s.completed.length = k + 1 :=
      ⟨t - s.completed.length - 1, by omega⟩
    rw [hk, List.getElem?_cons_succ] at hget
    rw [Waits, hlen, show t - (s.completed.length + 1) = k by omega]
    exact ⟨hlt, hget⟩

theorem Done.report (h : Done s (i :: rest) j t) : Done (s.report i b) rest j t := by
  obtain ⟨hnot, c, hc, hbuf, hafter⟩ := h
  have hne : j ≠ i := List.ne_of_not_mem_cons hnot
  refine ⟨List.not_mem_of_not_mem_cons hnot, c, ?_, hbuf, ?_⟩
  · have hlt : t < s.completed.length := (List.getElem?_eq_some_iff.mp hc).1
    simp only [System.report]
    rw [List.getElem?_append_left hlt, hc]
  · simpa [System.report, System.wakeup, System.setBuf, hne] using hafter

theorem Ledger.report (h : Ledger disksize m s (i :: rest))
    (hsync : Memide.iderw disksize (s.bufs i) (diskAfter m s.completed) = .ok (b, s.disks true)) :
    Ledger disksize m (s.report i b) rest := by
  have hi : i ∉ rest := (List.nodup_cons.mp h.queue.nodup).1
  have hother : ∀ j ∈ rest, (s.report i b).bufs j = s.bufs j := fun j hj =>
    update_of_ne (ne_of_mem_of_not_mem hj hi) _ _
  exact
    { queue := h.queue.pop
      requested := by
        have hmap : rest.map (fun j => (j, (s.report i b).bufs j)) =
            rest.map fun j => (j, s.bufs j) :=
          List.map_congr_left fun j hj => by rw [hother j hj]
        rw [hmap]
        simpa [System.report, System.wakeup, System.setBuf, Completion.request]
          using h.requested
      served := served_append.mpr ⟨h.served, hsync⟩
      returned := fun u b' hub => by
        obtain ⟨c, hc, hafter⟩ := h.returned u b' hub
        refine ⟨c, ?_, hafter⟩
        have hlt : u < s.completed.length := (List.getElem?_eq_some_iff.mp hc).1
        simp only [System.report]
        rw [List.getElem?_append_left hlt, hc]
      sleeping := fun q j u hq => by
        obtain ⟨hq, hne⟩ := wake_eq_sleeping.mp hq
        exact (h.sleeping q j u hq).report_of_ne hne
      ready := fun q j u hq => by
        rcases wake_eq_ready.mp hq with hq | ⟨hq, rfl⟩
        · rcases h.ready q j u hq with hwait | hdone
          · rcases eq_or_ne j i with rfl | hne
            · exact Or.inr (hwait.report_self hi)
            · exact Or.inl (hwait.report_of_ne hne)
          · exact Or.inr hdone.report
        · exact Or.inr ((h.sleeping q j u hq).report_self hi)
      waited := fun j hj => by
        obtain ⟨q, hq⟩ := h.waited j (List.mem_cons_of_mem i hj)
        exact ⟨q, (buf_wake i (s.procs q)).trans hq⟩
      requestable := fun j hj => by
        rw [hother j hj]
        exact h.requestable j (List.mem_cons_of_mem i hj)
      todo := fun j hj => by
        rw [hother j hj]
        exact h.todo j (List.mem_cons_of_mem i hj)
      havedisk1 := h.havedisk1 }

theorem Refines.irq (h : Refines disksize m s (i :: rest)) (hsize : FSSIZE ≤ disksize)
    (hrun : s.status = .running) (hirq : s.device.irq = true) :
    let s' := { s with device := { s.device with irq := false } }.ideintr
    Refines disksize m s' rest ∧ s'.status = .running ∧ s'.requested = s.requested ∧
      ∀ q, (s'.procs q).waiting = (s.procs q).waiting := by
  have hwork : Working s.device (s.disks true) (s.bufs i) (diskAfter m s.completed) := h.working
  have hb : Requestable (s.bufs i) := h.requestable i List.mem_cons_self
  obtain ⟨b', hreceived, hb'⟩ := received_of_carriedOut hwork hirq
  have hsync := Memide.iderw_eq hsize hb (h.todo i List.mem_cons_self) (diskAfter m s.completed)
  cases hwork with
  | issued hcmd hlow => simp [hirq] at hlow
  | carriedOut hcmd _ herr hdata hdisk =>
    rw [← hdisk, ← hb'] at hsync
    -- The acknowledged interrupt changes nothing that the ledger speaks of.
    have hack : Ledger disksize m { s with device := { s.device with irq := false } } (i :: rest) :=
      { h.toLedger with }
    have hledger := hack.report hsync
    have hstart := hledger.start hrun ?_ hcmd rfl ?_
    · simp only [System.ideintr, h.queue.head_eq, List.head?_cons, hreceived]
      refine ⟨hstart.1, hstart.2, ?_⟩
      split_ifs
      · obtain ⟨hrequested, -, hprocs⟩ := idestart_frame (System.report _ i _) _
        rw [hrequested, hprocs]
        exact ⟨rfl, fun q => waiting_wake i (s.procs q)⟩
      · exact ⟨rfl, fun q => waiting_wake i (s.procs q)⟩
    · simp [System.report, System.wakeup, System.setBuf, h.started]
    · exact (diskAfter_append m s.completed ⟨i, s.bufs i, _, s.disks true⟩).symm

end Interrupt

section Call

variable [DecidableEq β] {b : Buf}

theorem Refines.handIn (h : Refines disksize m s pending) (hrun : s.status = .running)
    (hp : s.procs p = .outside) (hfree : s.Free i) :
    i ∉ pending ∧ Refines disksize m ((s.setBuf i b).goto p (.calling i)) pending := by
  have hi : i ∉ pending := by
    intro hi
    obtain ⟨q, hq⟩ := h.waited i hi
    exact hfree q hq
  have hother : ∀ j, j ≠ i → (s.setBuf i b).bufs j = s.bufs j := fun j hj =>
    update_of_ne hj _ _
  have hin : ∀ j ∈ pending, (s.setBuf i b).bufs j = s.bufs j := fun j hj =>
    hother j (ne_of_mem_of_not_mem hj hi)
  have hproc : ∀ q, ((s.setBuf i b).goto p (.calling i)).procs q =
      if q = p then .calling i else s.procs q := fun q => update_apply ..
  refine ⟨hi, ?_⟩
  exact
    { queue := h.queue
      requested := by
        have hmap : pending.map (fun j => (j, (s.setBuf i b).bufs j)) =
            pending.map fun j => (j, s.bufs j) :=
          List.map_congr_left fun j hj => by rw [hin j hj]
        exact h.requested.trans (congrArg _ hmap.symm)
      served := h.served
      returned := h.returned
      sleeping := fun q j t hq => by
        rw [hproc] at hq
        split_ifs at hq
        exact h.sleeping q j t hq
      ready := fun q j t hq => by
        rw [hproc] at hq
        split_ifs at hq
        rcases h.ready q j t hq with hwait | ⟨hj, c, hc, hbuf, hafter⟩
        · exact Or.inl hwait
        · refine Or.inr ⟨hj, c, hc, hbuf, hafter.trans (hother j ?_).symm⟩
          rintro rfl
          exact hfree q (by rw [hq]; rfl)
      waited := fun j hj => by
        obtain ⟨q, hq⟩ := h.waited j hj
        refine ⟨q, ?_⟩
        rw [hproc, if_neg, hq]
        rintro rfl
        rw [hp] at hq
        cases hq
      requestable := fun j hj => (hin j hj).symm ▸ h.requestable j hj
      todo := fun j hj => (hin j hj).symm ▸ h.todo j hj
      havedisk1 := h.havedisk1
      started := h.started
      working := by
        have hhead : pending.head?.map (s.setBuf i b).bufs = pending.head?.map s.bufs := by
          cases pending with
          | nil => rfl
          | cons j rest => exact congrArg some (hin j List.mem_cons_self)
        exact hhead.symm ▸ h.working
      not_stuck := h.not_stuck
      panics := fun msg hmsg => by
        have hstop : s.status = .panic msg := hmsg
        rw [hrun] at hstop
        cases hstop }

variable [Fintype β]

omit [DecidableEq β] [Fintype β] in
theorem Ledger.enqueue (h : Ledger disksize m s pending) {q : LinkedQueue β}
    (hq : q.Represents (pending ++ [i])) (hp : s.procs p = .calling i)
    (hfree : ∀ q, q ≠ p → (s.procs q).buf ≠ some i) (hb : Requestable (s.bufs i))
    (htodo : ¬ ((s.bufs i).valid = true ∧ (s.bufs i).dirty = false)) :
    Ledger disksize m { s with queue := q, requested := s.requested ++ [(i, s.bufs i)] }
      (pending ++ [i]) := by
  have hwaits : ∀ j t, Waits s pending j t → Waits s (pending ++ [i]) j t := by
    intro j t hwait
    refine ⟨hwait.1, ?_⟩
    rw [List.getElem?_append_left (List.getElem?_eq_some_iff.mp hwait.2).1, hwait.2]
  have hmem : ∀ j ∈ pending ++ [i], j ∈ pending ∨ j = i := by simp
  exact
    { queue := hq
      requested := by simp [h.requested]
      served := h.served
      returned := h.returned
      sleeping := fun q j t hq => hwaits j t (h.sleeping q j t hq)
      ready := fun q j t hq => by
        rcases h.ready q j t hq with hwait | ⟨hj, hdone⟩
        · exact Or.inl (hwaits j t hwait)
        · refine Or.inr ⟨?_, hdone⟩
          intro hin
          rcases hmem j hin with hin | rfl
          · exact hj hin
          · refine hfree q ?_ (by rw [hq]; rfl)
            rintro rfl
            cases hp.symm.trans hq
      waited := fun j hj => by
        rcases hmem j hj with hj | rfl
        · exact h.waited j hj
        · exact ⟨p, by rw [hp]; rfl⟩
      requestable := fun j hj => by
        rcases hmem j hj with hj | rfl
        · exact h.requestable j hj
        · exact hb
      todo := fun j hj => by
        rcases hmem j hj with hj | rfl
        · exact h.todo j hj
        · exact htodo
      havedisk1 := h.havedisk1 }

theorem Refines.enqueue (h : Refines disksize m s pending) (hrun : s.status = .running)
    (hi : i ∉ pending) (hp : s.procs p = .calling i)
    (hfree : ∀ q, q ≠ p → (s.procs q).buf ≠ some i) (hb : Requestable (s.bufs i))
    (htodo : ¬ ((s.bufs i).valid = true ∧ (s.bufs i).dirty = false)) :
    Refines disksize m (s.enqueue i) (pending ++ [i]) ∧ (s.enqueue i).status = .running ∧
      (s.enqueue i).procs = s.procs ∧
      Waits (s.enqueue i) (pending ++ [i]) i s.requested.length := by
  obtain ⟨q, happend, hq⟩ := h.queue.append hi
  have hledger := h.toLedger.enqueue hq hp hfree hb htodo
  have hlen : s.requested.length = s.completed.length + pending.length := by
    rw [h.requested]
    simp
  have hwait : Waits s (pending ++ [i]) i s.requested.length := by
    refine ⟨by omega, ?_⟩
    rw [hlen, Nat.add_sub_cancel_left, List.getElem?_concat_length]
  rw [System.enqueue, happend]
  dsimp only
  cases pending with
  | nil =>
    have hhead : q.head = some i := hq.head_eq
    obtain ⟨hcmd, hirq, hdisk⟩ := h.working
    have hstart := hledger.start hrun (by simpa using h.started) hcmd hirq hdisk
    rw [hhead, if_pos (by simp)] at hstart
    rw [if_pos hhead]
    obtain ⟨-, hcompleted, hprocs⟩ :=
      idestart_frame { s with queue := q, requested := s.requested ++ [(i, s.bufs i)] } (some i)
    refine ⟨hstart.1, hstart.2, hprocs, ?_⟩
    rw [Waits, hcompleted]
    exact hwait
  | cons j rest =>
    have hhead : q.head ≠ some i := by
      rw [hq.head_eq]
      intro hji
      exact hi (by simp [Option.some.inj hji])
    rw [if_neg hhead]
    refine ⟨{ hledger with started := h.started, working := h.working, not_stuck := h.not_stuck,
                           panics := ?_ }, hrun, rfl, hwait⟩
    simp [hrun]

theorem Refines.call (h : Refines disksize m s pending)
    (hrun : s.status = .running) (hp : s.procs p = .outside) (hfree : s.Free i)
    (hb : Requestable b) :
    ∃ pending', Refines disksize m (((s.setBuf i b).goto p (.calling i)).iderw p i) pending' := by
  obtain ⟨hi, hin⟩ := h.handIn hrun hp hfree (b := b)
  have hbuf : ((s.setBuf i b).goto p (.calling i)).bufs i = b := update_self ..
  have hprocs : ((s.setBuf i b).goto p (.calling i)).procs p = .calling i := update_self ..
  have hother : ∀ q, q ≠ p → (((s.setBuf i b).goto p (.calling i)).procs q).buf ≠ some i := by
    intro q hq
    rw [show ((s.setBuf i b).goto p (.calling i)).procs q = s.procs q from
      update_of_ne hq _ _]
    exact hfree q
  have hstatus : ((s.setBuf i b).goto p (.calling i)).status = .running := hrun
  generalize (s.setBuf i b).goto p (.calling i) = s' at *
  rw [System.iderw, hbuf, if_neg (by simp [hb.busy])]
  by_cases htodo : b.valid = true ∧ b.dirty = false
  · -- Both drivers panic.
    rw [if_pos htodo]
    refine ⟨pending, { hin with not_stuck := by simp [System.stop], panics := ?_ }⟩
    intro msg hmsg
    refine ⟨p, i, hprocs, ?_⟩
    cases hmsg
    change Memide.iderw disksize (s'.bufs i) _ = _
    rw [hbuf, Memide.iderw, if_neg (by simp [hb.busy]), if_pos htodo]
    rfl
  · obtain ⟨hq, hrunning, hsame, hwait⟩ :=
      hin.enqueue hstatus hi hprocs hother (hbuf.symm ▸ hb) (hbuf.symm ▸ htodo)
    rw [if_neg htodo, if_neg (by simp [hin.havedisk1])]
    dsimp only
    rw [if_pos hrunning]
    refine ⟨pending ++ [i], hq.await hrunning ?_ (Or.inl hwait)⟩
    rw [hsame, hprocs]
    rfl

end Call

theorem refines_boot (n : ℕ) (disksize : ℕ) (bufs : β → Buf) (disks : Bool → Blocks) :
    Refines disksize (disks true) (System.boot n bufs disks) [] where
  queue := .empty _
  requested := rfl
  served := trivial
  returned := by simp [System.boot]
  sleeping := by simp [System.boot]
  ready := by simp [System.boot]
  waited := by simp
  requestable := by simp
  todo := by simp
  havedisk1 := rfl
  started := rfl
  working := ⟨rfl, rfl, rfl⟩
  not_stuck := by simp [System.boot]
  panics := by simp [System.boot]

variable [DecidableEq β] [Fintype β]

theorem Refines.act (h : Refines disksize m s pending) (hsize : FSSIZE ≤ disksize)
    {a : Action n β} (ha : Allowed s a) : ∃ pending', Refines disksize m (s.act a) pending' := by
  by_cases hrun : s.status = .running
  swap
  · exact ⟨pending, by rwa [System.act.eq_def, if_neg hrun]⟩
  rw [System.act.eq_def, if_pos hrun]
  cases a with
  | call p i b =>
    dsimp only
    split_ifs with hcall
    · exact h.call hrun hcall.1 hcall.2 ha
    · exact ⟨pending, h⟩
  | step p =>
    dsimp only
    split
    · rename_i i t hp
      exact ⟨pending, h.await hrun (by rw [hp]; rfl) (h.ready p i t hp)⟩
    · exact ⟨pending, h⟩
  | kill p =>
    dsimp only
    split
    · rename_i i t hp
      exact ⟨pending, h.kill hrun hp⟩
    · exact ⟨pending, h⟩
  | complete err =>
    obtain rfl : err = false := ha
    exact ⟨pending, h.complete⟩
  | irq =>
    dsimp only
    split_ifs with hirq
    · cases pending with
      | nil => exact absurd (hirq.symm.trans h.working.2.1) (by decide)
      | cons i rest => exact ⟨rest, (h.irq hsize hrun hirq).1⟩
    · exact ⟨pending, h⟩

def interrupts (n : ℕ) (β : Type) (k : ℕ) : List (Action n β) :=
  (List.replicate k [Action.complete false, Action.irq]).flatten

theorem Refines.interrupt (h : Refines disksize m s (i :: rest)) (hsize : FSSIZE ≤ disksize)
    (hrun : s.status = .running) :
    let s' := run System.act s [.complete false, .irq]
    Refines disksize m s' rest ∧ s'.status = .running ∧ s'.requested = s.requested ∧
      ∀ q, (s'.procs q).waiting = (s.procs q).waiting := by
  have hcomplete := h.complete
  have hirq : (s.device.complete false s.disks).1.irq = true := by
    have hwork : Working s.device (s.disks true) (s.bufs i) (diskAfter m s.completed) := h.working
    cases hwork with
    | issued hcmd =>
      rw [Device.complete, hcmd]
      dsimp only
      split_ifs <;> rfl
    | carriedOut hcmd hirq =>
      rw [Device.complete, hcmd]
      exact hirq
  have hact : run System.act s [.complete false, .irq] =
      System.ideintr { s with
        device := { (s.device.complete false s.disks).1 with irq := false }
        disks := (s.device.complete false s.disks).2 } := by
    simp only [run_cons, run_nil, System.act, hrun, if_true, hirq]
  rw [hact]
  exact hcomplete.irq hsize hrun hirq

theorem Refines.drain (h : Refines disksize m s pending) (hsize : FSSIZE ≤ disksize)
    (hrun : s.status = .running) :
    let s' := run System.act s (interrupts n β pending.length)
    Refines disksize m s' [] ∧ s'.status = .running ∧ s'.requested = s.requested ∧
      ∀ q, (s'.procs q).waiting = (s.procs q).waiting := by
  induction pending generalizing s with
  | nil => exact ⟨h, hrun, rfl, fun q => rfl⟩
  | cons i rest ih =>
    obtain ⟨hnext, hrunning, hrequested, hwaiting⟩ := h.interrupt hsize hrun
    obtain ⟨hend, hstatus, hreq, hprocs⟩ := ih hnext hrunning
    have hsplit : run System.act s (interrupts n β (i :: rest).length) =
        run System.act (run System.act s [.complete false, .irq])
          (interrupts n β rest.length) := by
      rw [← run_append]
      rfl
    rw [hsplit]
    exact ⟨hend, hstatus, hreq.trans hrequested, fun q => (hprocs q).trans (hwaiting q)⟩

/-- If the disk goes on interrupting once for each command, every request is completed in its
turn and every process that waits can return. -/
def Completes (s : System n β) (pending : List β) : Prop :=
  let s' := run System.act s (interrupts n β pending.length)
  s'.requested = s.requested ∧ s'.completed.map Completion.request = s.requested ∧
    s'.started = s.requested.map Prod.fst ∧
    ∀ p i t, (s.procs p).waiting = some (i, t) →
      (s'.act (.step p)).procs p = .outside ∧ ∃ b, (t, b) ∈ (s'.act (.step p)).returned

theorem Refines.completes (h : Refines disksize m s pending) (hsize : FSSIZE ≤ disksize)
    (hrun : s.status = .running) : Completes s pending := by
  obtain ⟨hend, hrunning, hrequested, hwaiting⟩ := h.drain hsize hrun
  unfold Completes
  generalize run System.act s (interrupts n β pending.length) = s' at *
  have hall : s'.completed.map Completion.request = s.requested := by
    rw [← hrequested, hend.requested]
    simp
  refine ⟨hrequested, hall, ?_, ?_⟩
  · rw [← hall, hend.started, List.map_map]
    simp [Function.comp_def, Completion.request]
  · intro p i t hp
    rw [← hwaiting p] at hp
    -- The queue is empty, so that no process can still wait.
    have hnone : ∀ j u, ¬ Waits s' [] j u := fun j u hwait => by simpa using hwait.mem
    cases hpc : s'.procs p with
    | outside => simp [hpc, Pc.waiting] at hp
    | calling j => simp [hpc, Pc.waiting] at hp
    | sleeping j u => exact absurd (hend.sleeping p j u hpc) (hnone j u)
    | ready j u =>
      rcases hend.ready p j u hpc with hwait | ⟨_, c, hc, _, hafter⟩
      · exact absurd hwait (hnone j u)
      · have hflags := hafter ▸ hend.served.after (List.mem_of_getElem? hc)
        simp only [hpc, Pc.waiting, Option.some.injEq, Prod.mk.injEq] at hp
        obtain ⟨rfl, rfl⟩ := hp
        rw [System.act, if_pos hrunning, hpc]
        dsimp only
        rw [System.await, if_pos hflags]
        exact ⟨update_self .., s'.bufs j, by simp⟩

/-- Requests are started and completed in the order in which they were made, and each completion
and each return is the one of the synchronous driver. -/
theorem ide_refines_memide (n : ℕ) (bufs : β → Buf) (disks : Bool → Blocks) (disksize : ℕ)
    (hsize : FSSIZE ≤ disksize) (acts : List (Action n β))
    (hacts : Along System.act Allowed (System.boot n bufs disks) acts) :
    Always System.act
      (fun s => ∃ pending, Refines disksize (disks true) s pending ∧
        (s.status = .running → Completes s pending))
      (System.boot n bufs disks) acts := by
  refine hacts.always (I := fun s => ∃ pending, Refines disksize (disks true) s pending)
    ⟨[], refines_boot n disksize bufs disks⟩ ?_ ?_
  · intro s a hs ha
    obtain ⟨pending, hs⟩ := hs
    exact hs.act hsize ha
  · intro s hs
    obtain ⟨pending, hs⟩ := hs
    exact ⟨pending, hs, hs.completes hsize⟩

def writer : Fin 2 := ⟨0, Nat.zero_lt_two⟩

def reader : Fin 2 := ⟨1, Nat.one_lt_two⟩

def writeRead : List (Action 2 (Fin 2)) :=
  [.call writer writer ⟨1, 3, true, false, true, fun _ => 7⟩,
    .call reader reader ⟨1, 3, true, false, false, fun _ => 0⟩,
    .complete false, .irq, .step writer, .complete false, .irq, .step reader]

theorem ide_refines_memide_writeRead :
    Always System.act
      (fun s => ∃ pending, Refines FSSIZE (fun _ _ => 0) s pending ∧
        (s.status = .running → Completes s pending))
      (System.boot 2 (fun _ => ⟨1, 0, false, false, false, fun _ => 0⟩) fun _ _ _ => 0) writeRead ∧
    (run System.act (System.boot 2 (fun _ => ⟨1, 0, false, false, false, fun _ => 0⟩)
      fun _ _ _ => 0) writeRead).returned.map (fun r => (r.1, r.2.data 0)) = [(0, 7), (1, 7)] := by
  refine ⟨ide_refines_memide 2 _ (fun _ _ _ => 0) FSSIZE le_rfl writeRead ?_, by decide +kernel⟩
  exact ⟨⟨rfl, rfl, by decide⟩, ⟨rfl, rfl, by decide⟩, rfl, trivial, trivial, rfl, trivial, trivial,
    trivial⟩

def Completion.HoldsBlock {β : Type} (c : Completion β) : Prop :=
  c.before.dirty = false → c.after.valid = true → c.after.data = c.disk c.before.blockno.toNat

omit [DecidableEq β] [Fintype β] in
theorem Served.holdsBlock (h : Served disksize m cs) (hc : c ∈ cs) : c.HoldsBlock := by
  induction cs generalizing m with
  | nil => cases hc
  | cons d cs ih =>
    rcases List.mem_cons.mp hc with rfl | hc
    · intro hread _
      have hsync := h.1
      simp only [Memide.iderw, hread, Bool.false_eq_true, if_false] at hsync
      split_ifs at hsync
      obtain ⟨hafter, hdisk⟩ := Prod.mk.inj (Except.ok.inj hsync)
      rw [← hafter, ← hdisk]
    · exact ih h.2 hc

omit [Fintype β] in
theorem completed_ideintr_of_error (hhead : s.queue.head = some i)
    (hread : (s.bufs i).dirty = false) (herr : idewait true s.device = some (-1)) :
    s.ideintr.completed = s.completed ++
      [⟨i, s.bufs i, { s.bufs i with valid := true, dirty := false }, s.disks true⟩] := by
  have hreceived : System.received s.device (s.bufs i) = some (s.bufs i) := by
    simp [System.received, hread, herr]
  simp only [System.ideintr, hhead, hreceived]
  split_ifs
  · exact (idestart_frame _ _).2.1
  · rfl

/-- While no command fails, every buffer that a read leaves valid holds its block. A read that
fails leaves its buffer valid all the same, with what it held before. -/
theorem ideintr_holdsBlock (n : ℕ) (bufs : β → Buf) (disks : Bool → Blocks) :
    (∀ acts, Along System.act Allowed (System.boot n bufs disks) acts →
      Always System.act (fun s => ∀ c ∈ s.completed, c.HoldsBlock)
        (System.boot n bufs disks) acts) ∧
    ∀ (s : System n β) (i : β), s.queue.head = some i → (s.bufs i).dirty = false →
      idewait true s.device = some (-1) →
      ∃ c, s.ideintr.completed = s.completed ++ [c] ∧ c.buf = i ∧ c.after.valid = true ∧
        (c.HoldsBlock ↔ (s.bufs i).data = s.disks true (s.bufs i).blockno.toNat) := by
  refine ⟨fun acts hacts => ?_, fun s i hhead hread herr => ?_⟩
  · refine hacts.always (I := fun s => ∃ pending, Refines FSSIZE (disks true) s pending)
      ⟨[], refines_boot n FSSIZE bufs disks⟩ ?_ ?_
    · intro s a hs ha
      obtain ⟨pending, hs⟩ := hs
      exact hs.act le_rfl ha
    · intro s hs c hc
      obtain ⟨pending, hs⟩ := hs
      exact hs.served.holdsBlock hc
  · refine ⟨_, completed_ideintr_of_error hhead hread herr, rfl, rfl, ?_⟩
    exact ⟨fun h => h hread rfl, fun h _ _ => h⟩

/-- The calls are as `Allowed` has them, and the commands may fail. -/
def Requested {n : ℕ} {β : Type} (_ : System n β) : Action n β → Prop
  | .call _ _ b => Requestable b
  | _ => True

def failedRead : List (Action 2 (Fin 2)) :=
  [.call reader reader ⟨1, 3, true, false, false, fun _ => 0⟩, .complete true, .irq]

theorem not_ideintr_holdsBlock :
    ¬ ∀ (n : ℕ) (bufs : Fin 2 → Buf) (disks : Bool → Blocks) (acts : List (Action n (Fin 2))),
      Along System.act Requested (System.boot n bufs disks) acts →
      Always System.act (fun s => ∀ c ∈ s.completed, c.HoldsBlock)
        (System.boot n bufs disks) acts := by
  intro h
  have hlast := h 2 (fun _ => ⟨1, 0, false, false, false, fun _ => 0⟩) (fun _ _ _ => 7) failedRead
    ⟨⟨rfl, rfl, by decide⟩, trivial, trivial, trivial⟩ failedRead List.prefix_rfl
  have hdata := hlast _ List.mem_cons_self rfl rfl
  exact absurd (congrFun hdata 0) (by decide +kernel)

end Xv6Prng.Ide
