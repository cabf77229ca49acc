import Xv6Prng.Library.LinkedRing
import Xv6Prng.Library.Runs
import Xv6Prng.Log

/-!
# The buffer cache used by many processes

Any number of processes read blocks with `bread`, change what they have read and pass it to
`log_write` or `bwrite`, and release it with `brelse`. What is done under `bcache.lock` or
`idelock` is one step, and so is an interrupt of the disk, which completes the request at the
head of `idequeue`. A process that finds a buffer busy sleeps on it and looks again from the
start when it is woken.

The list of buffers is the ring of pointers of `bio.c`. The two IDE disks are the devices; a
buffer that was never used has device -1.

The ghost `trace` records what each `bread` returns and what each `log_write` and `bwrite` is
given, and `logged` the blocks given to `log_write` and not to `bwrite` since.

Left out are the errors of the disk, the panic of `iderw` when disk 1 is not there and those of
`log_write`: they would cut a run short.
-/

namespace Xv6Prng.Fs.Shared

open Runs LinkedRing Function

abbrev Key := Word × Word

abbrev Store := Key → DiskBlock

structure Buf where
  dev : Word
  blockno : Word
  busy : Bool
  valid : Bool
  dirty : Bool
  data : DiskBlock

def Buf.key (b : Buf) : Key := (b.dev, b.blockno)

/-- What a process is doing with the cache; `iderw` remembers whether `bread` called it. -/
inductive Pc
  | running
  | bget (k : Key)
  | asleep (k : Key) (i : Fin NBUF)
  | got (i : Fin NBUF)
  | iderw (i : Fin NBUF) (reading : Bool)
  deriving DecidableEq

/-- A process with the buffers that it has been given, and those of them that it has changed
since it last passed them on. -/
structure Proc where
  pc : Pc
  held : Finset (Fin NBUF)
  modified : Finset (Fin NBUF)

inductive Event
  | read (k : Key) (data : DiskBlock)
  | write (k : Key) (data : DiskBlock)

structure System (n : ℕ) where
  bufs : Fin NBUF → Buf
  ring : LinkedRing (Fin NBUF)
  disk : Store
  idequeue : List (Fin NBUF)
  procs : Fin n → Proc
  panic : Option String
  trace : List Event
  logged : Finset Key

def binit : LinkedRing (Fin NBUF) := (List.finRange NBUF).foldl LinkedRing.pushFront LinkedRing.empty

def System.boot (n : ℕ) (disk : Store) : System n where
  bufs _ := ⟨-1, 0, false, false, false, fun _ => 0⟩
  ring := binit
  disk := disk
  idequeue := []
  procs _ := ⟨.running, ∅, ∅⟩
  panic := none
  trace := []
  logged := ∅

inductive Action (n : ℕ)
  | bread (p : Fin n) (dev : Fin 2) (blockno : Word)
  | modify (p : Fin n) (i : Fin NBUF) (data : DiskBlock)
  | logWrite (p : Fin n) (i : Fin NBUF)
  | bwrite (p : Fin n) (i : Fin NBUF)
  | brelse (p : Fin n) (i : Fin NBUF)
  | step (p : Fin n)
  | ideintr

/-- `wakeup(b)`, for one process: a sleeper in `bget` starts its search again. -/
def Proc.wake (i : Fin NBUF) (x : Proc) : Proc :=
  match x.pc with
  | .asleep k j => if j = i then { x with pc := .bget k } else x
  | _ => x

namespace System

variable {n : ℕ} (s : System n) (p : Fin n) (i : Fin NBUF)

def setBuf (b : Buf) : System n := { s with bufs := Function.update s.bufs i b }

def setProc (x : Proc) : System n := { s with procs := Function.update s.procs p x }

def goto (pc : Pc) : System n := s.setProc p { s.procs p with pc := pc }

def wakeup : System n := { s with procs := fun q => (s.procs q).wake i }

def stop (msg : String) : System n := { s with panic := some msg }

def hand (b : Buf) : System n :=
  (s.setBuf i b).setProc p { s.procs p with pc := .got i, held := insert i (s.procs p).held }

def bget (k : Key) : System n :=
  match (walk s.ring.next NBUF none).find? fun i => (s.bufs i).key = k with
  | some i =>
    if (s.bufs i).busy then s.goto p (.asleep k i)
    else s.hand p i { s.bufs i with busy := true }
  | none =>
    match (walk s.ring.prev NBUF none).find? fun i => !(s.bufs i).busy && !(s.bufs i).dirty with
    | some i => s.hand p i ⟨k.1, k.2, true, false, false, (s.bufs i).data⟩
    | none => s.stop "bget: no buffers"

def returned : System n :=
  { s.goto p .running with trace := s.trace ++ [.read (s.bufs i).key (s.bufs i).data] }

def idestart : System n :=
  match s.idequeue with
  | [] => s
  | i :: _ => if (s.bufs i).blockno.toNat ≥ FSSIZE then s.stop "incorrect blockno" else s

def iderw (reading : Bool) : System n :=
  if (s.bufs i).busy = false then s.stop "iderw: buf not busy"
  else if (s.bufs i).valid = true ∧ (s.bufs i).dirty = false then s.stop "iderw: nothing to do"
  else
    let t := { s.goto p (.iderw i reading) with idequeue := s.idequeue ++ [i] }
    if s.idequeue = [] then t.idestart else t

def stepProc : System n :=
  match (s.procs p).pc with
  | .bget k => s.bget p k
  | .got i => if (s.bufs i).valid then s.returned p i else s.iderw p i true
  | .iderw i reading =>
    if (s.bufs i).valid = true ∧ (s.bufs i).dirty = false then
      if reading then s.returned p i else s.goto p .running
    else s
  | _ => s

def modify (data : DiskBlock) : System n :=
  (s.setBuf i { s.bufs i with data := data }).setProc p
    { s.procs p with modified := insert i (s.procs p).modified }

/-- The buffer's contents are passed to `log_write` or `bwrite`, which both mark it dirty. -/
def written (logged : Finset Key) : System n :=
  { (s.setBuf i { s.bufs i with dirty := true }).setProc p
      { s.procs p with modified := (s.procs p).modified.erase i } with
    trace := s.trace ++ [.write (s.bufs i).key (s.bufs i).data]
    logged := logged }

def logWrite : System n := s.written p i (insert (s.bufs i).key s.logged)

def bwrite : System n :=
  if (s.bufs i).busy = false then s.stop "bwrite"
  else (s.written p i (s.logged.erase (s.bufs i).key)).iderw p i false

def brelse : System n :=
  if (s.bufs i).busy = false then s.stop "brelse"
  else
    let t := { s with ring := (s.ring.unlink i).pushFront i }
    ((t.setBuf i { s.bufs i with busy := false }).setProc p
      { s.procs p with held := (s.procs p).held.erase i }).wakeup i

def ideintr : System n :=
  match s.idequeue with
  | [] => s
  | i :: rest =>
    let b := s.bufs i
    let t : System n :=
      if b.dirty then
        { s.setBuf i { b with valid := true, dirty := false } with
          disk := Function.update s.disk b.key b.data }
      else s.setBuf i { b with valid := true, dirty := false, data := s.disk b.key }
    ({ t with idequeue := rest }.wakeup i).idestart

def Holds : Prop := (s.procs p).pc = .running ∧ i ∈ (s.procs p).held

instance : Decidable (s.Holds p i) := inferInstanceAs (Decidable (_ ∧ _))

/-- A process uses only buffers that it holds, and passes on what it has changed before it
releases it. -/
def act : Action n → System n
  | .bread p dev blockno =>
    if (s.procs p).pc = .running then s.goto p (.bget (BitVec.ofNat 32 dev.val, blockno)) else s
  | .modify p i data => if s.Holds p i then s.modify p i data else s
  | .logWrite p i => if s.Holds p i then s.logWrite p i else s
  | .bwrite p i => if s.Holds p i then s.bwrite p i else s
  | .brelse p i => if s.Holds p i ∧ i ∉ (s.procs p).modified then s.brelse p i else s
  | .step p => s.stepProc p
  | .ideintr => s.ideintr

end System

def step {n : ℕ} (s : System n) (a : Action n) : System n :=
  if s.panic.isSome then s else s.act a

def Pc.uses : Pc → Option (Fin NBUF)
  | .got i | .iderw i _ => some i
  | _ => none

def Pc.fetches : Pc → Option (Fin NBUF)
  | .got i | .iderw i true => some i
  | _ => none

def Pc.asks : Pc → Option Key
  | .bget k | .asleep k _ => some k
  | _ => none

theorem Pc.uses_of_fetches {pc : Pc} {i : Fin NBUF} (h : pc.fetches = some i) :
    pc.uses = some i := by
  cases pc with
  | got j => exact h
  | iderw j reading =>
    cases reading with
    | true => exact h
    | false => cases h
  | _ => cases h

def Buf.Ready (b : Buf) : Prop := b.valid = true ∧ b.dirty = false

inductive Move {n : ℕ} (s : System n) : Action n → System n → Prop
  | still {a : Action n} : Move s a s
  | stop {a : Action n} (msg : String) (hmsg : msg ≠ "bget: no buffers") : Move s a (s.stop msg)
  | ask {p : Fin n} {dev : Fin 2} {blockno : Word} (hpc : (s.procs p).pc = .running) :
      Move s (.bread p dev blockno) (s.goto p (.bget (BitVec.ofNat 32 dev.val, blockno)))
  | sleep {p : Fin n} {k : Key} {i : Fin NBUF} (hpc : (s.procs p).pc = .bget k) :
      Move s (.step p) (s.goto p (.asleep k i))
  | find {p : Fin n} {k : Key} {i : Fin NBUF} (hpc : (s.procs p).pc = .bget k)
      (hkey : (s.bufs i).key = k) (hfree : (s.bufs i).busy = false) :
      Move s (.step p) (s.hand p i { s.bufs i with busy := true })
  | recycle {p : Fin n} {k : Key} {i : Fin NBUF} (hpc : (s.procs p).pc = .bget k)
      (hnew : ∀ j ∈ walk s.ring.next NBUF none, (s.bufs j).key ≠ k)
      (hfree : (s.bufs i).busy = false) (hclean : (s.bufs i).dirty = false) :
      Move s (.step p) (s.hand p i ⟨k.1, k.2, true, false, false, (s.bufs i).data⟩)
  | noBuffers {p : Fin n} {k : Key} (hpc : (s.procs p).pc = .bget k)
      (hfull : ∀ j ∈ walk s.ring.prev NBUF none,
        (s.bufs j).busy = true ∨ (s.bufs j).dirty = true) :
      Move s (.step p) (s.stop "bget: no buffers")
  | fetch {p : Fin n} {i : Fin NBUF} (hpc : (s.procs p).pc = .got i)
      (hvalid : ¬ (s.bufs i).valid = true) : Move s (.step p) (s.iderw p i true)
  | returned {p : Fin n} {i : Fin NBUF} (huses : (s.procs p).pc.uses = some i)
      (hvalid : (s.bufs i).valid = true)
      (hready : ∀ r, (s.procs p).pc = .iderw i r → (s.bufs i).Ready) :
      Move s (.step p) (s.returned p i)
  | resume {p : Fin n} {i : Fin NBUF} (hpc : (s.procs p).pc = .iderw i false)
      (hready : (s.bufs i).Ready) : Move s (.step p) (s.goto p .running)
  | modify {p : Fin n} {i : Fin NBUF} {data : DiskBlock} (hs : s.Holds p i) :
      Move s (.modify p i data) (s.modify p i data)
  | logWrite {p : Fin n} {i : Fin NBUF} (hs : s.Holds p i) :
      Move s (.logWrite p i) (s.logWrite p i)
  | bwrite {p : Fin n} {i : Fin NBUF} (hs : s.Holds p i) (hbusy : ¬ (s.bufs i).busy = false) :
      Move s (.bwrite p i) (s.bwrite p i)
  | brelse {p : Fin n} {i : Fin NBUF} (hs : s.Holds p i) (hm : i ∉ (s.procs p).modified)
      (hbusy : ¬ (s.bufs i).busy = false) : Move s (.brelse p i) (s.brelse p i)
  | ideintr : Move s .ideintr s.ideintr

section Moves

variable {n : ℕ} {s : System n} {p : Fin n}

theorem move_bget {k : Key} (hpc : (s.procs p).pc = .bget k) :
    Move s (.step p) (s.bget p k) := by
  rw [System.bget]
  split
  next i hfind =>
    split_ifs with hbusy
    · exact .sleep hpc
    · exact .find hpc (by simpa using List.find?_some hfind) (by simpa using hbusy)
  next hnone =>
    split
    next i hfind =>
      have hclean := List.find?_some hfind
      simp only [Bool.and_eq_true, Bool.not_eq_true'] at hclean
      refine .recycle hpc (fun j hj => ?_) hclean.1 hclean.2
      simpa using List.find?_eq_none.mp hnone j hj
    next hfull =>
      refine .noBuffers hpc fun j hj => ?_
      have hj := List.find?_eq_none.mp hfull j hj
      rw [Bool.and_eq_true, Bool.not_eq_true', Bool.not_eq_true', not_and_or] at hj
      simpa using hj

theorem move_stepProc (s : System n) (p : Fin n) : Move s (.step p) (s.stepProc p) := by
  rw [System.stepProc]
  split
  next k hpc => exact move_bget hpc
  next i hpc =>
    split_ifs with hvalid
    · refine .returned (by rw [hpc]; rfl) hvalid fun r hr => ?_
      rw [hpc] at hr
      cases hr
    · exact .fetch hpc hvalid
  next i reading hpc =>
    split_ifs with hready hreading
    · exact .returned (by rw [hpc]; rfl) hready.1 fun _ _ => hready
    · rw [Bool.not_eq_true] at hreading
      exact .resume (hreading ▸ hpc) hready
    · exact .still
  next => exact .still

theorem move_step (s : System n) (a : Action n) : Move s a (step s a) := by
  rw [step]
  split_ifs
  · exact .still
  cases a with
  | bread q dev blockno =>
    simp only [System.act]
    split_ifs with hpc
    · exact .ask hpc
    · exact .still
  | modify q i data =>
    simp only [System.act]
    split_ifs with hs
    · exact .modify hs
    · exact .still
  | logWrite q i =>
    simp only [System.act]
    split_ifs with hs
    · exact .logWrite hs
    · exact .still
  | bwrite q i =>
    simp only [System.act]
    split_ifs with hs
    · by_cases hbusy : (s.bufs i).busy = false
      · rw [System.bwrite, if_pos hbusy]
        exact .stop _ (by decide)
      · exact .bwrite hs hbusy
    · exact .still
  | brelse q i =>
    simp only [System.act]
    split_ifs with hs
    · by_cases hbusy : (s.bufs i).busy = false
      · rw [System.brelse, if_pos hbusy]
        exact .stop _ (by decide)
      · exact .brelse hs.1 hs.2 hbusy
    · exact .still
  | step q => exact move_stepProc s q
  | ideintr => exact .ideintr

end Moves

structure ProcOk (bufs : Fin NBUF → Buf) (queue : List (Fin NBUF)) (x : Proc) : Prop where
  modified : x.modified ⊆ x.held
  uses : ∀ i, x.pc.uses = some i → i ∈ x.held ∧ i ∉ x.modified
  valid : ∀ i ∈ x.held, (bufs i).valid = true ∨ x.pc.fetches = some i
  done : ∀ i r, x.pc = .iderw i r → i ∉ queue → (bufs i).Ready

structure Control {n : ℕ} (s : System n) : Prop where
  busy : ∀ i, (s.bufs i).busy = true ↔ ∃ p, i ∈ (s.procs p).held
  owner : ∀ p q i, i ∈ (s.procs p).held → i ∈ (s.procs q).held → p = q
  procs : ∀ p, ProcOk s.bufs s.idequeue (s.procs p)
  dirty : ∀ i, (s.bufs i).dirty = true → (s.bufs i).valid = true
  queued : ∀ i ∈ s.idequeue, ∃ p r, (s.procs p).pc = .iderw i r
  nodup : s.idequeue.Nodup
  pending : ∀ i ∈ s.idequeue, ¬ (s.bufs i).Ready

section Control

variable {n : ℕ} {s : System n} {p : Fin n} {i : Fin NBUF} {x : Proc}

theorem ProcOk.frame {bufs bufs' : Fin NBUF → Buf} {queue queue' : List (Fin NBUF)}
    (h : ProcOk bufs queue x) (hbufs : ∀ j ∈ x.held, bufs' j = bufs j)
    (hqueue : ∀ j ∈ x.held, j ∈ queue' ↔ j ∈ queue) : ProcOk bufs' queue' x where
  modified := h.modified
  uses := h.uses
  valid j hj := by rw [hbufs j hj]; exact h.valid j hj
  done j r hj hnot := by
    have hheld := (h.uses j (by rw [hj]; rfl)).1
    rw [hbufs j hheld]
    exact h.done j r hj fun hin => hnot ((hqueue j hheld).mpr hin)

theorem Control.change (h : Control s) {s' : System n} {b : Buf}
    (hbufs : s'.bufs = update s.bufs i b)
    (hprocs : s'.procs = update s.procs p x)
    (hfree : ∀ q ≠ p, i ∉ (s.procs q).held)
    (hheld : ∀ j ≠ i, j ∈ x.held ↔ j ∈ (s.procs p).held)
    (hqueue : ∀ j ≠ i, j ∈ s'.idequeue ↔ j ∈ s.idequeue) (hnodup : s'.idequeue.Nodup)
    (hwaits : ∀ j r, j ≠ i → (s.procs p).pc = .iderw j r → j ∈ s.idequeue → x.pc = .iderw j r)
    (hbusy : b.busy = true ↔ i ∈ x.held) (hdirty : b.dirty = true → b.valid = true)
    (hpending : i ∈ s'.idequeue → (∃ r, x.pc = .iderw i r) ∧ ¬ b.Ready)
    (hx : ProcOk s'.bufs s'.idequeue x) : Control s' := by
  have hself : s'.bufs i = b := by rw [hbufs, update_self]
  have hother {j : Fin NBUF} (hj : j ≠ i) : s'.bufs j = s.bufs j := by
    rw [hbufs, update_of_ne hj]
  have hp : s'.procs p = x := by rw [hprocs, update_self]
  have hq {q : Fin n} (hqp : q ≠ p) : s'.procs q = s.procs q := by
    rw [hprocs, update_of_ne hqp]
  have hiff (q : Fin n) {j : Fin NBUF} (hj : j ≠ i) :
      j ∈ (s'.procs q).held ↔ j ∈ (s.procs q).held := by
    by_cases hqp : q = p
    · rw [hqp, hp]
      exact hheld j hj
    · rw [hq hqp]
  have honly {q : Fin n} (hin : i ∈ (s'.procs q).held) : q = p := by
    by_contra hqp
    rw [hq hqp] at hin
    exact hfree q hqp hin
  refine ⟨fun j => ?_, fun q r j hjq hjr => ?_, fun q => ?_, fun j hj => ?_, fun j hj => ?_, hnodup,
    fun j hj => ?_⟩
  · by_cases hj : j = i
    · rw [hj, hself, hbusy]
      exact ⟨fun hin => ⟨p, hp ▸ hin⟩, fun ⟨q, hin⟩ => hp ▸ honly hin ▸ hin⟩
    · rw [hother hj, h.busy j]
      exact exists_congr fun q => (hiff q hj).symm
  · by_cases hj : j = i
    · rw [hj] at hjq hjr
      exact (honly hjq).trans (honly hjr).symm
    · exact h.owner q r j ((hiff q hj).mp hjq) ((hiff r hj).mp hjr)
  · by_cases hqp : q = p
    · rw [hqp, hp]
      exact hx
    · rw [hq hqp]
      have hne (j : Fin NBUF) (hj : j ∈ (s.procs q).held) : j ≠ i :=
        fun hji => hfree q hqp (hji ▸ hj)
      exact (h.procs q).frame (fun j hj => hother (hne j hj)) fun j hj => hqueue j (hne j hj)
  · by_cases hji : j = i
    · rw [hji, hself] at hj ⊢
      exact hdirty hj
    · rw [hother hji] at hj ⊢
      exact h.dirty j hj
  · by_cases hji : j = i
    · rw [hji] at hj ⊢
      obtain ⟨⟨r, hr⟩, -⟩ := hpending hj
      exact ⟨p, r, by rw [hp, hr]⟩
    · obtain ⟨q, r, hpc⟩ := h.queued j ((hqueue j hji).mp hj)
      refine ⟨q, r, ?_⟩
      by_cases hqp : q = p
      · rw [hqp] at hpc ⊢
        rw [hp]
        exact hwaits j r hji hpc ((hqueue j hji).mp hj)
      · rw [hq hqp, hpc]
  · by_cases hji : j = i
    · rw [hji] at hj ⊢
      rw [hself]
      exact (hpending hj).2
    · rw [hother hji]
      exact h.pending j ((hqueue j hji).mp hj)

theorem Control.stop (h : Control s) (msg : String) : Control (s.stop msg) := { h with }

theorem Control.idestart (h : Control s) : Control s.idestart := by
  rw [System.idestart]
  split
  · exact h
  · split_ifs
    · exact h.stop _
    · exact h

theorem wake_cases (x : Proc) :
    x.wake i = x ∨ ∃ k, x.pc = .asleep k i ∧ x.wake i = { x with pc := .bget k } := by
  rw [Proc.wake]
  split
  next k j hpc =>
    split_ifs with hj
    · exact Or.inr ⟨k, hj ▸ hpc, rfl⟩
    · exact Or.inl rfl
  next => exact Or.inl rfl

theorem wake_held (x : Proc) : (x.wake i).held = x.held := by
  rcases wake_cases (i := i) x with h | ⟨k, -, h⟩ <;> rw [h]

theorem wake_modified (x : Proc) : (x.wake i).modified = x.modified := by
  rcases wake_cases (i := i) x with h | ⟨k, -, h⟩ <;> rw [h]

theorem wake_pc_iderw {j : Fin NBUF} {r : Bool} :
    (x.wake i).pc = .iderw j r ↔ x.pc = .iderw j r := by
  rcases wake_cases (i := i) x with h | ⟨k, hpc, h⟩ <;> rw [h]
  rw [hpc]
  exact ⟨nofun, nofun⟩

theorem wake_uses (x : Proc) : (x.wake i).pc.uses = x.pc.uses := by
  rcases wake_cases (i := i) x with h | ⟨k, hpc, h⟩ <;> rw [h]
  rw [hpc]
  rfl

theorem wake_fetches (x : Proc) : (x.wake i).pc.fetches = x.pc.fetches := by
  rcases wake_cases (i := i) x with h | ⟨k, hpc, h⟩ <;> rw [h]
  rw [hpc]
  rfl

theorem wake_asks (x : Proc) : (x.wake i).pc.asks = x.pc.asks := by
  rcases wake_cases (i := i) x with h | ⟨k, hpc, h⟩ <;> rw [h]
  rw [hpc]
  rfl

theorem ProcOk.wake {bufs : Fin NBUF → Buf} {queue : List (Fin NBUF)}
    (h : ProcOk bufs queue x) : ProcOk bufs queue (x.wake i) where
  modified := by rw [wake_modified, wake_held]; exact h.modified
  uses := by rw [wake_uses, wake_modified, wake_held]; exact h.uses
  valid := by rw [wake_fetches, wake_held]; exact h.valid
  done j r hj := h.done j r (wake_pc_iderw.mp hj)

section Control

variable (h : Control s)
include h

theorem Control.wakeup : Control (s.wakeup i) where
  busy j := by simp only [System.wakeup, wake_held]; exact h.busy j
  owner p q j := by simp only [System.wakeup, wake_held]; exact h.owner p q j
  procs p := (h.procs p).wake
  __ := h
  queued j hj := by
    obtain ⟨q, r, hpc⟩ := h.queued j hj
    exact ⟨q, r, wake_pc_iderw.mpr hpc⟩

theorem Control.goto {pc : Pc} (hfrom : ∀ j r, (s.procs p).pc = .iderw j r →
      j ∉ s.idequeue) (huses : pc.uses = none)
    (hvalid : ∀ j, (s.procs p).pc.fetches = some j → (s.bufs j).valid = true) :
    Control (s.goto p pc) := by
  have hok := h.procs p
  have hheld (q : Fin n) : ((s.goto p pc).procs q).held = (s.procs q).held := by
    simp only [System.goto, System.setProc, update_apply]
    split_ifs with hq
    · rw [hq]
    · rfl
  refine ⟨fun j => ?_, fun q r j => ?_, fun q => ?_, h.dirty, fun j hj => ?_, h.nodup, h.pending⟩
  · simp only [hheld]
    exact h.busy j
  · rw [hheld, hheld]
    exact h.owner q r j
  · simp only [System.goto, System.setProc, update_apply]
    split_ifs with hq
    · refine ⟨hok.modified, fun j hj => ?_, fun j hj => ?_, fun j r hj => ?_⟩
      · rw [huses] at hj
        cases hj
      · exact Or.inl ((hok.valid j hj).elim id (hvalid j))
      · have hj' : pc.uses = some j := by
          rw [show pc = Pc.iderw j r from hj]
          rfl
        rw [huses] at hj'
        cases hj'
    · exact h.procs q
  · obtain ⟨q, r, hpc⟩ := h.queued j hj
    refine ⟨q, r, ?_⟩
    have hq : q ≠ p := by
      rintro rfl
      exact hfrom j r hpc hj
    simp only [System.goto, System.setProc, update_of_ne hq]
    exact hpc

theorem Control.not_held (hbusy : (s.bufs i).busy = false) (q : Fin n) : i ∉ (s.procs q).held := by
  intro hin
  have hyes := (h.busy i).mpr ⟨q, hin⟩
  rw [hbusy] at hyes
  cases hyes

theorem Control.not_queued (hbusy : (s.bufs i).busy = false) : i ∉ s.idequeue := by
  intro hin
  obtain ⟨q, r, hpc⟩ := h.queued i hin
  exact h.not_held hbusy q ((h.procs q).uses i (by rw [hpc]; rfl)).1

theorem Control.hand (hbusy : (s.bufs i).busy = false) {k : Key}
    (hpc : (s.procs p).pc = .bget k) {b : Buf} (hb : b.busy = true)
    (hd : b.dirty = true → b.valid = true) : Control (s.hand p i b) := by
  have hok := h.procs p
  have hnot := h.not_queued hbusy
  refine h.change rfl rfl (fun q _ => h.not_held hbusy q) (fun j hj => ?_) (fun j _ => Iff.rfl)
    h.nodup (fun j r _ hj => ?_) ?_ hd (fun hin => absurd hin hnot) ⟨?_, ?_, ?_, ?_⟩
  · exact ⟨fun hin => Finset.mem_of_mem_insert_of_ne hin hj, Finset.mem_insert_of_mem⟩
  · rw [hpc] at hj
    cases hj
  · exact iff_of_true hb (Finset.mem_insert_self _ _)
  · exact hok.modified.trans (Finset.subset_insert _ _)
  · rintro j hj
    obtain rfl : i = j := Option.some.inj hj
    exact ⟨Finset.mem_insert_self _ _, fun hin => h.not_held hbusy p (hok.modified hin)⟩
  · intro j hj
    by_cases hji : j = i
    · exact Or.inr (congrArg some hji.symm)
    · have hold := hok.valid j (Finset.mem_of_mem_insert_of_ne hj hji)
      rw [hpc] at hold
      left
      simp only [System.hand, System.setBuf, System.setProc, update_of_ne hji]
      exact hold.resolve_right nofun
  · exact nofun

theorem Control.valid_of_running (hs : s.Holds p i) : (s.bufs i).valid = true := by
  have hvalid := (h.procs p).valid i hs.2
  rw [hs.1] at hvalid
  exact hvalid.resolve_right nofun

theorem Control.not_queued_of_running (hs : s.Holds p i) : i ∉ s.idequeue := by
  intro hin
  obtain ⟨q, r, hpc⟩ := h.queued i hin
  have hq := ((h.procs q).uses i (by rw [hpc]; rfl)).1
  rw [h.owner q p i hq hs.2, hs.1] at hpc
  cases hpc

theorem Control.others (hi : i ∈ (s.procs p).held) (q : Fin n) (hq : q ≠ p) :
    i ∉ (s.procs q).held := fun hin => hq (h.owner q p i hin hi)

theorem Control.change_running (hs : s.Holds p i) {s' : System n} {b : Buf}
    {modified : Finset (Fin NBUF)} (hbufs : s'.bufs = update s.bufs i b)
    (hprocs : s'.procs = update s.procs p { s.procs p with modified := modified })
    (hqueue : s'.idequeue = s.idequeue) (hbusy : b.busy = (s.bufs i).busy)
    (hvalid : b.valid = (s.bufs i).valid) (hsub : modified ⊆ (s.procs p).held) :
    Control s' := by
  have hok := h.procs p
  have hi := h.valid_of_running hs
  have hnot := h.not_queued_of_running hs
  refine h.change hbufs hprocs (h.others hs.2) (fun j _ => Iff.rfl) (fun j _ => by rw [hqueue])
    (hqueue ▸ h.nodup) (fun j r _ hj => ?_) ?_ (fun _ => hvalid.trans hi) (fun hin => ?_)
    ⟨hsub, fun j hj => ?_, fun j hj => Or.inl ?_, fun j r hj => ?_⟩
  · exact fun _ => hj
  · exact iff_of_true (hbusy.trans ((h.busy i).mpr ⟨p, hs.2⟩)) hs.2
  · rw [hqueue] at hin
    exact absurd hin hnot
  · rw [hs.1] at hj
    cases hj
  · rw [hbufs, update_apply]
    split_ifs with hji
    · exact hvalid.trans hi
    · have hold := hok.valid j hj
      rw [hs.1] at hold
      exact hold.resolve_right nofun
  · rw [hs.1] at hj
    cases hj

theorem Control.modify (hs : s.Holds p i) (data : DiskBlock) : Control (s.modify p i data) :=
  h.change_running hs rfl rfl rfl rfl rfl (Finset.insert_subset hs.2 (h.procs p).modified)

theorem Control.written (hs : s.Holds p i) (logged : Finset Key) : Control (s.written p i logged) :=
  h.change_running hs rfl rfl rfl rfl rfl ((Finset.erase_subset _ _).trans (h.procs p).modified)

theorem Control.iderw {reading : Bool} (hheld : i ∈ (s.procs p).held)
    (hmodified : i ∉ (s.procs p).modified) (hnot : i ∉ s.idequeue)
    (hpc : ∀ j r, (s.procs p).pc ≠ .iderw j r)
    (hfetches : ∀ j, (s.procs p).pc.fetches = some j → j = i ∧ reading = true) :
    Control (s.iderw p i reading) := by
  have hok := h.procs p
  rw [System.iderw]
  split_ifs with hfree hready hempty
  · exact h.stop _
  · exact h.stop _
  all_goals
    have hnext : Control { s.goto p (.iderw i reading) with idequeue := s.idequeue ++ [i] } := by
      refine h.change (i := i) (b := s.bufs i) (update_eq_self i s.bufs).symm rfl
        (h.others hheld) (fun j _ => Iff.rfl) (fun j hj => ?_) ?_
        (fun j r _ hj => absurd hj (hpc j r)) ?_ (h.dirty i) (fun _ => ⟨⟨reading, rfl⟩, hready⟩)
        ⟨hok.modified, ?_, fun j hj => ?_, fun j r hj hin => ?_⟩
      · simp [hj]
      · exact List.concat_eq_append ▸ h.nodup.concat hnot
      · exact iff_of_true ((h.busy i).mpr ⟨p, hheld⟩) hheld
      · rintro j hj
        obtain rfl : i = j := Option.some.inj hj
        exact ⟨hheld, hmodified⟩
      · rcases hok.valid j hj with hv | hf
        · exact Or.inl hv
        · obtain ⟨rfl, rfl⟩ := hfetches j hf
          exact Or.inr rfl
      · obtain rfl : i = j := (Pc.iderw.inj hj).1
        exact absurd (List.mem_append_right _ (List.mem_singleton_self _)) hin
  · exact hnext.idestart
  · exact hnext

theorem Control.bwrite (hs : s.Holds p i) : Control (s.bwrite p i) := by
  have hok := h.procs p
  rw [System.bwrite]
  split_ifs
  · exact h.stop _
  · refine (h.written hs _).iderw ?_ ?_ (h.not_queued_of_running hs) ?_ ?_ <;>
      simp only [System.written, System.setBuf, System.setProc, update_self]
    · exact hs.2
    · exact Finset.notMem_erase i _
    · rw [hs.1]
      exact fun _ _ => nofun
    · rw [hs.1]
      exact fun _ => nofun

theorem Control.brelse (hs : s.Holds p i) (hm : i ∉ (s.procs p).modified) :
    Control (s.brelse p i) := by
  have hok := h.procs p
  rw [System.brelse]
  split_ifs
  · exact h.stop _
  · apply Control.wakeup
    refine h.change (i := i) rfl rfl (h.others hs.2) (fun j hj => ?_) (fun j _ => Iff.rfl) h.nodup
      (fun j r _ hj => ?_) ?_ (h.dirty i) (fun hin => absurd hin (h.not_queued_of_running hs))
      ⟨fun j hj => ?_, fun j hj => ?_, fun j hj => Or.inl ?_, fun j r hj => ?_⟩
    · rw [Finset.mem_erase, and_iff_right hj]
    · exact fun _ => hj
    · exact iff_of_false Bool.false_ne_true (Finset.notMem_erase i _)
    · exact Finset.mem_erase.mpr ⟨fun hji => hm (hji ▸ hj), hok.modified hj⟩
    · rw [hs.1] at hj
      cases hj
    · obtain ⟨hji, hj⟩ := Finset.mem_erase.mp hj
      simp only [System.setBuf, System.setProc, update_of_ne hji]
      have hold := hok.valid j hj
      rw [hs.1] at hold
      exact hold.resolve_right nofun
    · rw [hs.1] at hj
      cases hj

theorem Control.complete {rest : List (Fin NBUF)} (hq : s.idequeue = i :: rest)
    {s' : System n} {b : Buf} (hbufs : s'.bufs = update s.bufs i b)
    (hprocs : s'.procs = s.procs) (hqueue : s'.idequeue = rest)
    (hbusy : b.busy = (s.bufs i).busy) (hready : b.Ready) : Control s' := by
  obtain ⟨p, r, hpc⟩ := h.queued i (hq ▸ List.mem_cons_self)
  have hok := h.procs p
  have hheld := (hok.uses i (by rw [hpc]; rfl)).1
  have hnodup := h.nodup
  rw [hq, List.nodup_cons] at hnodup
  have hother (j : Fin NBUF) (hj : j ≠ i) : j ∈ s'.idequeue ↔ j ∈ s.idequeue := by
    rw [hqueue, hq, List.mem_cons, or_iff_right hj]
  refine h.change (p := p) (x := s.procs p) hbufs (hprocs.trans (update_eq_self _ _).symm)
    (h.others hheld) (fun j _ => Iff.rfl) hother (hqueue ▸ hnodup.2) (fun j r _ hj _ => hj) ?_
    (fun hd => absurd hd (by rw [hready.2]; exact Bool.false_ne_true))
    (fun hin => absurd (hqueue ▸ hin) hnodup.1)
    ⟨hok.modified, hok.uses, fun j hj => ?_, fun j r' hj hnot => ?_⟩
  · rw [hbusy]
    exact iff_of_true ((h.busy i).mpr ⟨p, hheld⟩) hheld
  · rw [hbufs, update_apply]
    split_ifs with hji
    · exact Or.inl hready.1
    · exact hok.valid j hj
  · rw [hbufs, update_apply]
    split_ifs with hji
    · exact hready
    · exact hok.done j r' hj fun hin => hnot ((hother j hji).mpr hin)

theorem Control.ideintr : Control s.ideintr := by
  rw [System.ideintr]
  split
  · exact h
  next i rest hq =>
    apply Control.idestart
    apply Control.wakeup
    split_ifs
    · exact h.complete hq rfl rfl rfl rfl ⟨rfl, rfl⟩
    · exact h.complete hq rfl rfl rfl rfl ⟨rfl, rfl⟩

theorem Control.ask {pc : Pc} (hfrom : (s.procs p).pc.uses = none)
    (hto : pc.uses = none) : Control (s.goto p pc) := by
  refine h.goto (fun j r hj => ?_) hto fun j hj => ?_
  · rw [hj] at hfrom
    cases hfrom
  · rw [Pc.uses_of_fetches hj] at hfrom
    cases hfrom

theorem Control.resume (huses : (s.procs p).pc.uses = some i) (hvalid : (s.bufs i).valid = true)
    (hready : ∀ r, (s.procs p).pc = .iderw i r → (s.bufs i).Ready) :
    Control (s.goto p .running) := by
  refine h.goto (fun j r hj hin => ?_) rfl fun j hj => ?_
  · rw [hj] at huses
    obtain rfl : j = i := Option.some.inj huses
    exact h.pending j hin (hready r hj)
  · rw [Pc.uses_of_fetches hj] at huses
    exact Option.some.inj huses ▸ hvalid

theorem Control.fetch (hpc : (s.procs p).pc = .got i) : Control (s.iderw p i true) := by
  have hi := (h.procs p).uses i (by rw [hpc]; rfl)
  have hwait : ∀ j r, (s.procs p).pc ≠ .iderw j r := fun j r hj => by
    rw [hpc] at hj
    cases hj
  refine h.iderw hi.1 hi.2 (fun hin => ?_) hwait fun j hj => ?_
  · -- a queued buffer has its own process waiting for it
    obtain ⟨q, r, hq⟩ := h.queued i hin
    have hheld := ((h.procs q).uses i (by rw [hq]; rfl)).1
    exact hwait i r (h.owner q p i hheld hi.1 ▸ hq)
  · rw [hpc] at hj
    exact ⟨(Option.some.inj hj).symm, rfl⟩

theorem Control.step (a : Action n) : Control (step s a) := by
  have hmove := move_step s a
  generalize Shared.step s a = s' at hmove ⊢
  cases hmove with
  | still => exact h
  | stop msg _ => exact h.stop msg
  | ask hpc => exact h.ask (by rw [hpc]; rfl) rfl
  | sleep hpc => exact h.ask (by rw [hpc]; rfl) rfl
  | find hpc _ hfree => exact h.hand hfree hpc rfl (h.dirty _)
  | recycle hpc _ hfree _ => exact h.hand hfree hpc rfl nofun
  | noBuffers => exact h.stop _
  | fetch hpc _ => exact h.fetch hpc
  | returned huses hvalid hready => exact { h.resume huses hvalid hready with }
  | resume hpc hready => exact h.resume (by rw [hpc]; rfl) hready.1 fun _ _ => hready
  | modify hs => exact h.modify hs _
  | logWrite hs => exact h.written hs _
  | bwrite hs _ => exact h.bwrite hs
  | brelse hs hm _ => exact h.brelse hs hm
  | ideintr => exact h.ideintr

end Control

theorem control_boot (disk : Store) : Control (System.boot n disk) where
  busy i := iff_of_false Bool.false_ne_true (by simp [System.boot])
  owner p q i hp := absurd hp (Finset.notMem_empty i)
  procs p := ⟨le_rfl, nofun, nofun, nofun⟩
  dirty i := nofun
  queued i := nofun
  nodup := List.nodup_nil
  pending i := nofun

/-- The panics about a buffer that is not busy or has nothing to do. -/
def misuses : List String := ["bwrite", "brelse", "iderw: buf not busy", "iderw: nothing to do"]

def System.NoMisuse (s : System n) : Prop := s.panic ∉ misuses.map some

theorem panics_idestart (h : s.NoMisuse) : s.idestart.NoMisuse := by
  rw [System.idestart]
  split
  · exact h
  · split_ifs
    · exact (by decide : some "incorrect blockno" ∉ misuses.map some)
    · exact h

theorem panics_iderw (h : s.NoMisuse) (hbusy : (s.bufs i).busy = true) (hready : ¬ (s.bufs i).Ready)
    (reading : Bool) : (s.iderw p i reading).NoMisuse := by
  rw [Buf.Ready] at hready
  rw [System.iderw, if_neg (by rw [hbusy]; decide), if_neg hready]
  split_ifs
  · exact panics_idestart h
  · exact h

theorem panics_bget (h : s.NoMisuse) (k : Key) : (s.bget p k).NoMisuse := by
  rw [System.bget]
  split
  · split_ifs
    · exact h
    · exact h
  · split
    · exact h
    · exact (by decide : some "bget: no buffers" ∉ misuses.map some)

theorem Control.panics (hc : Control s) (h : s.NoMisuse) (a : Action n) :
    (Shared.step s a).NoMisuse := by
  have hheld {p : Fin n} {i : Fin NBUF} (hi : i ∈ (s.procs p).held) : (s.bufs i).busy = true :=
    (hc.busy i).mpr ⟨p, hi⟩
  rw [Shared.step]
  split_ifs
  · exact h
  cases a with
  | bwrite p i =>
    simp only [System.act]
    split_ifs with hs
    · rw [System.bwrite, if_neg (by rw [hheld hs.2]; decide)]
      refine panics_iderw (s := s.written p i _) h ?_ (fun hready => ?_) false
      · simp [System.written, System.setProc, System.setBuf, hheld hs.2]
      · -- what `bwrite` passes on is dirty
        simp [System.written, System.setProc, System.setBuf, Buf.Ready] at hready
    · exact h
  | brelse p i =>
    simp only [System.act]
    split_ifs with hs
    · rw [System.brelse, if_neg (by rw [hheld hs.1.2]; decide)]
      exact h
    · exact h
  | step p =>
    simp only [System.act, System.stepProc]
    split
    next k _ => exact panics_bget h k
    next i hpc =>
      split_ifs with hvalid
      · exact h
      · exact panics_iderw h (hheld ((hc.procs p).uses i (by rw [hpc]; rfl)).1)
          (fun hready => hvalid hready.1) true
    next => split_ifs <;> exact h
    next => exact h
  | ideintr =>
    simp only [System.act, System.ideintr]
    split
    · exact h
    · refine panics_idestart ?_
      split_ifs <;> exact h
  | _ =>
    simp only [System.act]
    split_ifs <;> exact h

end Control

/-- `brelse`, `bwrite` and `iderw` never find a buffer that is not busy or has nothing to do. -/
theorem panic_run {n : ℕ} (disk : Store) (acts : List (Action n)) :
    (run step (.boot n disk) acts).panic ∉ misuses.map some :=
  (run_invariant (I := fun s => Control s ∧ s.NoMisuse)
    ⟨control_boot disk, (by decide : none ∉ misuses.map some)⟩
    fun _ a h => ⟨h.1.step a, h.1.panics h.2 a⟩).2

end Xv6Prng.Fs.Shared
