import Xv6Prng.Console
import Xv6Prng.SelectLists

/-!
# `select` and those who wake it

One process is in `sys_select`, holding its `selectlock` except while it sleeps. The others write
to pipes, read from them and close them, as in `pipe.c`, or handle the keyboard interrupt. Each
of them takes one step for a turn of a loop and, in `wakeupselect`, stops at every `acquire` and
`release`. Readiness is tested without a lock.
-/

namespace Xv6Prng.SelectWake

open Runs Select Function

/-- `consoleintr` before `acquire(&cons.lock)`, at the head of its loop, or waking the selectors
of the console. -/
inductive IntrStage (ι : Type)
  | enter
  | body
  | wakeupselect (w : Ipc.WakePc ι)

/-- What a process other than the selecting one does; `cs` are the keys that `getc` still has. -/
inductive Task (κ ι : Type)
  | idle
  | pipe (k : κ) (c : Ipc.Call) (stage : Ipc.Stage ι)
  | consoleintr (cs : List Byte) (stage : IntrStage ι)

structure Kernel (κ ι : Type) where
  pipes : κ → Ipc.Pipe ι
  consLock : Option ι
  input : Console.Input
  selprocread : Ipc.Selproc ι
  locks : ι → Option ι
  tasks : ι → Task κ ι
  killed : ι → Bool
  call : Call
  woken : Bool

section Code

variable {κ ι : Type}

def Task.ofPc (k : κ) : Ipc.Pc ι → Task κ ι
  | .idle => .idle
  | .call c stage => .pipe k c stage

def Task.rouse : Task κ ι → Task κ ι
  | .pipe k c .asleep => .pipe k c .enter
  | t => t

def pipereadable (killed : Bool) (P : Ipc.Pipe ι) : ℤ :=
  if killed = true then -1 else if ¬ P.empty ∨ P.writeopen = false then 1 else 0

def pipewriteable (killed : Bool) (P : Ipc.Pipe ι) : ℤ :=
  if P.readopen = false ∨ killed = true then -1 else if ¬ P.full then 1 else 0

def consolereadable (killed : Bool) (I : Console.Input) : ℤ :=
  if killed = true then -1 else if I.readable then 1 else 0

def fileReady (pipes : κ → Ipc.Pipe ι) (I : Console.Input) (killed : Bool) : Mode → Desc κ → ℤ
  | .read, .pipe k => pipereadable killed (pipes k)
  | .write, .pipe k => pipewriteable killed (pipes k)
  | .read, .console => consolereadable killed I
  | .write, .console => 1

namespace Kernel

variable (s : Kernel κ ι)

def lists : Lists κ ι
  | .read k => (s.pipes k).selprocread
  | .write k => (s.pipes k).selprocwrite
  | .console => s.selprocread

def withLists (L : Lists κ ι) : Kernel κ ι :=
  { s with
    pipes := fun k => { s.pipes k with selprocread := L (.read k), selprocwrite := L (.write k) }
    selprocread := L .console }

def ready (killed : Bool) (m : Mode) (d : Desc κ) : ℤ := fileReady s.pipes s.input killed m d

def answer (killed : Bool) : Helper × Ptr (Desc κ) → ℤ
  | (.filereadable, .file d) => s.ready killed .read d
  | (.filewriteable, .file d) => s.ready killed .write d
  | _ => 0

end Kernel

variable [DecidableEq κ] [DecidableEq ι]

def Task.wakeup (k : κ) (side : Ipc.Side) : Task κ ι → Task κ ι
  | .pipe k' c .asleep =>
    if k' = k ∧ c.waits = some side then .pipe k' c .enter else .pipe k' c .asleep
  | t => t

namespace Kernel

variable (s : Kernel κ ι)

def wakeupSelid (me : ι) (p : Option ι) : Kernel κ ι :=
  if p = some me ∧ s.call.pc = .asleep then { s with woken := true } else s

def wakeup (k : κ) (side : Ipc.Side) : Kernel κ ι :=
  { s with tasks := fun q => (s.tasks q).wakeup k side }

def deliver (me : ι) : Ipc.Event ι → Kernel κ ι
  | .wakeupSelid p => s.wakeupSelid me p
  | _ => s

def pipeStep (me q : ι) (k : κ) (c : Ipc.Call) (stage : Ipc.Stage ι) : Kernel κ ι :=
  let t := Ipc.turn (s.killed q) (s.pipes k) s.locks q c stage
  let s' := { s with
    pipes := Function.update s.pipes k t.pipe
    locks := t.locks
    tasks := Function.update s.tasks q (Task.ofPc k t.pc) }
  match t.event with
  | .wakeup side => s'.wakeup k side
  | e => s'.deliver me e

def intrStep (me q : ι) (cs : List Byte) : IntrStage ι → Kernel κ ι
  | .enter =>
    if s.consLock = none then
      { s with
        consLock := some q
        tasks := Function.update s.tasks q (.consoleintr cs .body) }
    else s
  | .body =>
    match cs with
    | [] => { s with consLock := none, tasks := Function.update s.tasks q .idle }
    | c :: cs =>
      { s with
        input := (s.input.key c).1
        tasks := Function.update s.tasks q
          (.consoleintr cs (if (s.input.key c).2 then .wakeupselect (.test 0) else .body)) }
  | .wakeupselect w =>
    let (w', locks, e) := Ipc.wakeupselect q s.selprocread s.locks w
    let stage := match w' with
      | some w' => .wakeupselect w'
      | none => .body
    ({ s with
      locks := locks
      tasks := Function.update s.tasks q (.consoleintr cs stage) }).deliver me e

def stepTask (me q : ι) : Kernel κ ι :=
  match s.tasks q with
  | .idle => s
  | .pipe k c stage => s.pipeStep me q k c stage
  | .consoleintr cs stage => s.intrStep me q cs stage

def start (q : ι) (t : Task κ ι) : Kernel κ ι :=
  match s.tasks q with
  | .idle => { s with tasks := Function.update s.tasks q t }
  | _ => s

def kill (q : ι) : Kernel κ ι :=
  { s with
    killed := Function.update s.killed q true
    tasks := Function.update s.tasks q (s.tasks q).rouse }

/-- A step of `sys_select`. `sleep` gives up `selectlock`, and takes it again when the process has
been woken. -/
def select (me : ι) (a : Args) (ofile : ℕ → Ptr (Desc κ)) : Kernel κ ι :=
  match s.call.pc with
  | .sleep => { s with call := s.call.next a 0, locks := Function.update s.locks me none }
  | .asleep =>
    if s.woken = true ∧ s.locks me = none then
      { s with
        call := s.call.next a 0
        woken := false
        locks := Function.update s.locks me (some me) }
    else s
  | .done => s
  | _ =>
    let r := match s.call.request a ofile with
      | some q => s.answer (s.killed me) q
      | none => 0
    let t := Selector.step me a ofile ⟨s.call, s.lists⟩ r
    { s.withLists t.lists with
      call := t.call
      locks := if t.call.pc = .done then Function.update s.locks me none else s.locks }

end Kernel

inductive Action (κ ι : Type)
  | select
  | pipewrite (q : ι) (k : κ) (addr : ℕ → Byte) (count : ℤ)
  | piperead (q : ι) (k : κ) (count : ℤ)
  | pipeclose (q : ι) (k : κ) (writable : Bool)
  | consoleintr (q : ι) (cs : List Byte)
  | consoleread (q : ι)
  | step (q : ι)
  | kill (q : ι)

def Action.actor : Action κ ι → Option ι
  | .select => none
  | .pipewrite q _ _ _ | .piperead q _ _ | .pipeclose q _ _ | .consoleintr q _ | .consoleread q
  | .step q | .kill q => some q

def Kernel.act (me : ι) (a : Args) (ofile : ℕ → Ptr (Desc κ)) (s : Kernel κ ι) :
    Action κ ι → Kernel κ ι
  | .select => s.select me a ofile
  | .pipewrite q k addr count => s.start q (.pipe k (.write addr count 0) .enter)
  | .piperead q k count => s.start q (.pipe k (.read count []) .enter)
  | .pipeclose q k writable => s.start q (.pipe k (.close writable) .enter)
  | .consoleintr q cs => s.start q (.consoleintr cs .enter)
  | .consoleread _ =>
    if s.consLock = none ∧ s.input.readable then { s with input := s.input.take.2 } else s
  | .step q => s.stepTask me q
  | .kill q => s.kill q

def step (me : ι) (a : Args) (ofile : ℕ → Ptr (Desc κ)) (s : Kernel κ ι) (act : Action κ ι) :
    Kernel κ ι :=
  if act.actor = some me then s else s.act me a ofile act

end Code

section Statement

variable {κ ι : Type}

def before (i : Fin Ipc.NSELPROC) : Ipc.WakePc ι → Prop
  | .test j => j ≤ i.val
  | .acquire j _ | .wakeup j => j ≤ i
  | .release j => j < i

def sideList (k : κ) : Ipc.Side → ListId κ
  | .read => .read k
  | .write => .write k

def Task.scan : Task κ ι → Option (ListId κ × Ipc.WakePc ι)
  | .pipe k c (.wakeupselect w) => some (sideList k c.wakes, w)
  | .consoleintr _ (.wakeupselect w) => some (.console, w)
  | _ => none

/-- The process has still to come to entry `i` of the list: it is waking the list, or in a loop
that the call of `wakeupselect` follows. -/
def Task.toWake (l : ListId κ) (i : Fin Ipc.NSELPROC) : Task κ ι → Prop
  | .pipe k (.write _ _ _) .body => l = .read k
  | .pipe k c .copy => l = sideList k c.wakes
  | t => ∃ w, t.scan = some (l, w) ∧ before i w

def Ready (s : Kernel κ ι) (m : Mode) (d : Desc κ) : Prop := 0 < s.ready false m d

/-- The process is in the list of the descriptor, and if that is ready, somebody is about to wake
this entry. -/
def Waiting (me : ι) (s : Kernel κ ι) (m : Mode) (d : Desc κ) : Prop :=
  ∃ i, (s.lists (d.list m.selid)).sel i = some me ∧
    (Ready s m d → ∃ q, (s.tasks q).toWake (d.list m.selid) i)

def NoLostWakeup (me : ι) (a : Args) (ofile : ℕ → Ptr (Desc κ)) (s : Kernel κ ι) : Prop :=
  s.call.pc = .asleep → s.woken = false → ∀ x m d, a.selected x m = true → ofile x = .file d →
    Ready s m d → ∃ i q, (s.lists (d.list m.selid)).sel i = some me ∧
      (s.tasks q).toWake (d.list m.selid) i

def between (c : Call) (k : ℕ) : Prop :=
  match c.pc with
  | .check x m => c.found = false ∧ k < rank x m
  | .register x m => rank x m ≤ k
  | _ => False

def listed (c : Call) (k : ℕ) : Prop :=
  match c.pc with
  | .register x m => k < rank x m
  | .sleep | .asleep => True
  | _ => False

/-- A `pipewrite` at a full pipe that returns -1 without a `wakeupselect`. -/
def GivesUp (s : Kernel κ ι) (q : ι) (k : κ) : Prop :=
  ∃ addr count i, s.tasks q = .pipe k (.write addr count i) .body ∧ (i : ℤ) < count ∧
    (s.pipes k).full ∧ ((s.pipes k).readopen = false ∨ s.killed q = true)

structure Room (me : ι) (L : Ipc.Selproc ι) : Prop where
  counted : Counted L
  free : ∃ i, L.sel i = none ∨ L.sel i = some me

variable [DecidableEq κ] [DecidableEq ι]

structure Regular (me : ι) (a : Args) (ofile : ℕ → Ptr (Desc κ)) (s : Kernel κ ι)
    (act : Action κ ι) : Prop where
  between : ∀ x m d, a.selected x m = true → ofile x = .file d → between s.call (rank x m) →
    Ready (step me a ofile s act) m d → Ready s m d
  givesUp : ∀ x k q, a.selected x .read = true → ofile x = .file (.pipe k) →
    listed s.call (rank x .read) → act.actor = some q → ¬ GivesUp s q k

structure Start (me : ι) (a : Args) (ofile : ℕ → Ptr (Desc κ)) (s : Kernel κ ι) : Prop where
  call : ∃ selid, s.call = .start selid
  woken : s.woken = false
  killed : s.killed me = false
  lock : s.locks me = some me
  tasks : ∀ q, s.tasks q = .idle
  paired : ∀ l i p, (s.lists l).sel i = some p → (s.lists l).lk i = some p
  room : ∀ x m d, a.selected x m = true → ofile x = .file d →
    Room me (s.lists (d.list m.selid))

end Statement

variable {i : Fin Ipc.NSELPROC} {m : Mode} {x : ℕ}

section Others

variable {κ ι : Type} {me q : ι}

theorem lists_withLists (s : Kernel κ ι) (L : Lists κ ι) : (s.withLists L).lists = L := by
  funext l
  cases l <;> rfl

theorem toWake_scan {t : Task κ ι} {l l' : ListId κ} {w : Ipc.WakePc ι}
    (h : t.scan = some (l', w)) :
    t.toWake l i ↔ l' = l ∧ before i w := by
  have hwake : t.toWake l i ↔ ∃ w, t.scan = some (l, w) ∧ before i w := by
    cases t with
    | idle => exact Iff.rfl
    | pipe k c stage =>
      cases stage with
      | wakeupselect w => cases c <;> exact Iff.rfl
      | _ => cases h
    | consoleintr cs stage => exact Iff.rfl
  rw [hwake, h]
  simp only [Option.some.injEq, Prod.mk.injEq]
  constructor
  · rintro ⟨w', ⟨rfl, rfl⟩, hb⟩
    exact ⟨rfl, hb⟩
  · rintro ⟨rfl, hb⟩
    exact ⟨w, ⟨rfl, rfl⟩, hb⟩

/-- What a process in `wakeupselect` knows of the list: the lock that it waits for, or holds, is
the one in the list, and an entry of another process stays. -/
def ScanOk (me : ι) (L : Ipc.Selproc ι) (locks : ι → Option ι) (q : ι) : Ipc.WakePc ι → Prop
  | .test _ => True
  | .acquire j p => L.lk j = some p ∧ (p ≠ me → L.sel j = some p)
  | .wakeup j | .release j =>
    ∃ p, L.lk j = some p ∧ locks p = some q ∧ (p ≠ me → L.sel j = some p)

def LockStep (q : ι) (locks locks' : ι → Option ι) : Prop :=
  ∀ p, locks' p = locks p ∨ locks p = none ∧ locks' p = some q ∨
    locks p = some q ∧ locks' p = none

theorem LockStep.refl (q : ι) (locks : ι → Option ι) : LockStep q locks locks := fun _ => .inl rfl

theorem LockStep.keeps {locks locks' : ι → Option ι} (h : LockStep q locks locks') {p q' : ι}
    (hq : q' ≠ q) (hp : locks p = some q') : locks' p = some q' := by
  obtain hsame | ⟨hnone, _⟩ | ⟨hmine, _⟩ := h p
  · rw [hsame, hp]
  · rw [hp] at hnone
    cases hnone
  · rw [hp] at hmine
    exact absurd (Option.some.inj hmine) hq

theorem ScanOk.lockStep {L : Ipc.Selproc ι} {locks locks' : ι → Option ι} {q q' : ι}
    {w : Ipc.WakePc ι} (h : ScanOk me L locks q' w) (hq : q' ≠ q)
    (hlocks : LockStep q locks locks') : ScanOk me L locks' q' w := by
  cases w with
  | wakeup j =>
    obtain ⟨p, hlk, hlock, hsel⟩ := h
    exact ⟨p, hlk, hlocks.keeps hq hlock, hsel⟩
  | release j =>
    obtain ⟨p, hlk, hlock, hsel⟩ := h
    exact ⟨p, hlk, hlocks.keeps hq hlock, hsel⟩
  | _ => exact h

section Scan

variable {L : Ipc.Selproc ι} {locks : ι → Option ι} {w : Ipc.WakePc ι}

structure ScanStep (me q : ι) (L : Ipc.Selproc ι) (locks : ι → Option ι) (w : Ipc.WakePc ι)
    (r : Option (Ipc.WakePc ι) × (ι → Option ι) × Ipc.Event ι) : Prop where
  lockStep : LockStep q locks r.2.1
  ok : ∀ w', r.1 = some w' → ScanOk me L r.2.1 q w'
  reach : ∀ i, L.sel i = some me → before i w → (∃ w', r.1 = some w' ∧ before i w') ∨
    r.2.2 = .wakeupSelid (some me) ∧ locks me = some q
  event : ∀ side, r.2.2 ≠ .wakeup side

theorem ScanStep.stay {w w' : Ipc.WakePc ι} (hok : ScanOk me L locks q w')
    (hbefore : ∀ i, L.sel i = some me → before i w → before i w') :
    ScanStep me q L locks w (some w', locks, .quiet) where
  lockStep := .refl q locks
  ok _ h := by
    obtain rfl := Option.some.inj h
    exact hok
  reach i hi hb := .inl ⟨w', rfl, hbefore i hi hb⟩
  event _ := by simp

variable [DecidableEq ι]

theorem LockStep.update {p : ι} {v : Option ι}
    (h : locks p = none ∧ v = some q ∨ locks p = some q ∧ v = none) :
    LockStep q locks (update locks p v) := by
  intro p'
  by_cases hp : p' = p
  · subst hp
    rw [update_self]
    exact .inr h
  · exact .inl (update_of_ne hp v locks)

theorem scanStep_wakeupselect (hpaired : ∀ i p, L.sel i = some p → L.lk i = some p)
    (hok : ScanOk me L locks q w) : ScanStep me q L locks w (Ipc.wakeupselect q L locks w) := by
  cases w with
  | test j =>
    simp only [Ipc.wakeupselect]
    split_ifs with hj hsome
    · obtain ⟨p, hp⟩ := Option.isSome_iff_exists.mp hsome
      have hlk := hpaired _ p hp
      simp only [hlk]
      exact .stay ⟨hlk, fun _ => hp⟩ fun i _ hb => hb
    · refine .stay trivial fun i hi hb => ?_
      have hne : j ≠ i.val := by
        rintro rfl
        rw [hi] at hsome
        exact hsome rfl
      simp only [before] at hb ⊢
      omega
    · refine ⟨.refl q locks, by simp, fun i _ hb => ?_, by simp⟩
      have hi := i.isLt
      simp only [before] at hb
      omega
  | acquire j p =>
    simp only [Ipc.wakeupselect]
    split_ifs with hfree
    · refine ⟨.update (.inl ⟨hfree, rfl⟩), fun w' hw' => ?_, fun i _ hb => ?_, by simp⟩
      · obtain rfl := Option.some.inj hw'
        exact ⟨p, hok.1, update_self .., hok.2⟩
      · exact .inl ⟨_, rfl, hb⟩
    · exact .stay hok fun i _ hb => hb
  | wakeup j =>
    refine ⟨.refl q locks, fun w' hw' => ?_, fun i hi hb => ?_, by simp [Ipc.wakeupselect]⟩
    · obtain rfl := Option.some.inj hw'
      exact hok
    · obtain rfl | hlt := hb.eq_or_lt
      · obtain ⟨p, hlk, hlock, _⟩ := hok
        obtain rfl : p = me := Option.some.inj (hlk.symm.trans (hpaired j me hi))
        refine .inr ⟨?_, hlock⟩
        simp only [Ipc.wakeupselect, hi]
      · exact .inl ⟨_, rfl, hlt⟩
  | release j =>
    obtain ⟨p, hlk, hlock, _⟩ := hok
    simp only [Ipc.wakeupselect, hlk, hlock, if_true]
    refine ⟨.update (.inr ⟨hlock, rfl⟩), fun w' hw' => ?_, fun i _ hb => ?_, by simp⟩
    · obtain rfl := Option.some.inj hw'
      trivial
    · exact .inl ⟨_, rfl, hb⟩

end Scan

section Pipes

variable [DecidableEq ι] {P : Ipc.Pipe ι} {locks : ι → Option ι} {killed : Bool} {c : Ipc.Call}
  {stage : Ipc.Stage ι}

omit [DecidableEq ι] in
theorem pipereadable_pos (P : Ipc.Pipe ι) :
    0 < pipereadable false P ↔ ¬ P.empty ∨ P.writeopen = false := by
  unfold pipereadable
  split_ifs <;> simp_all

omit [DecidableEq ι] in
theorem pipewriteable_pos (P : Ipc.Pipe ι) :
    0 < pipewriteable false P ↔ P.readopen = true ∧ ¬ P.full := by
  unfold pipewriteable
  split_ifs <;> simp_all

def pipeReady (P : Ipc.Pipe ι) : Mode → ℤ
  | .read => pipereadable false P
  | .write => pipewriteable false P

theorem consolereadable_pos (I : Console.Input) : 0 < consolereadable false I ↔ I.readable := by
  unfold consolereadable
  split_ifs <;> simp_all

def SameEnds (P P' : Ipc.Pipe ι) : Prop :=
  P'.nread = P.nread ∧ P'.nwrite = P.nwrite ∧ P'.readopen = P.readopen ∧
    P'.writeopen = P.writeopen

/-- What a turn of a pipe call can do outside `wakeupselect`. -/
structure Turned (q : ι) (k : κ) (s : Kernel κ ι) (t : Ipc.Turn ι) : Prop where
  lists : t.pipe.selprocread = (s.pipes k).selprocread ∧
    t.pipe.selprocwrite = (s.pipes k).selprocwrite
  ends : SameEnds (s.pipes k) t.pipe ∨
    (¬ (s.pipes k).empty ∧ ∀ i, (Task.ofPc k t.pc).toWake (.write k) i) ∨
    (¬ (s.pipes k).full ∧ t.pipe.readopen = (s.pipes k).readopen ∧
      ∀ i, (Task.ofPc k t.pc).toWake (.read k) i) ∨
    (t.pipe = (s.pipes k).shut true ∧ ∀ i, (Task.ofPc k t.pc).toWake (.read k) i) ∨
    t.pipe = (s.pipes k).shut false
  locks : t.locks = s.locks
  event : ∀ p, t.event ≠ .wakeupSelid p
  scan : ∀ l w, (Task.ofPc k t.pc).scan = some (l, w) → w = .test 0
  toWake : ∀ l i, (s.tasks q).toWake l i → (l = .read k → ¬ GivesUp s q k) →
    (Task.ofPc k t.pc).toWake l i

section Turned

variable {s : Kernel κ ι} {k : κ} {t : Ipc.Turn ι}

omit [DecidableEq ι] in
theorem Turned.still {lock : Option ι} (hpipe : t.pipe = { s.pipes k with lock := lock })
    (hlocks : t.locks = s.locks) (hevent : ∀ p, t.event ≠ .wakeupSelid p)
    (hscan : (Task.ofPc k t.pc).scan = none) (hidle : ∀ l i, ¬ (s.tasks q).toWake l i) :
    Turned q k s t where
  lists := by
    rw [hpipe]
    exact ⟨rfl, rfl⟩
  ends := by
    rw [hpipe]
    exact .inl ⟨rfl, rfl, rfl, rfl⟩
  locks := hlocks
  event := hevent
  scan l w hw := by
    rw [hscan] at hw
    cases hw
  toWake l i hwake := absurd hwake (hidle l i)

theorem turned {c : Ipc.Call} {stage : Ipc.Stage ι} (htask : s.tasks q = .pipe k c stage)
    (h : ∀ w, stage ≠ .wakeupselect w) :
    Turned q k s (Ipc.turn (s.killed q) (s.pipes k) s.locks q c stage) := by
  have hscan : ∀ c : Ipc.Call, ∀ l w,
      (Task.pipe k c (.wakeupselect (.test 0)) : Task κ ι).scan = some (l, w) → w = .test 0 := by
    intro c l w hw
    simp only [Task.scan, Option.some.injEq, Prod.mk.injEq] at hw
    exact hw.2.symm
  have hidle : (∀ l i, ¬ (Task.pipe k c stage : Task κ ι).toWake l i) →
      ∀ l i, ¬ (s.tasks q).toWake l i := by
    rw [htask]
    exact id
  cases stage with
  | body =>
    cases c with
    | write addr n j =>
      have hold : ∀ l i, (s.tasks q).toWake l i → l = .read k := by
        rw [htask]
        exact fun l i => id
      simp only [Ipc.turn, Ipc.bodyTurn, Ipc.pipewriteTurn]
      split_ifs with hj hfull hexit
      · refine ⟨⟨rfl, rfl⟩, .inl ⟨rfl, rfl, rfl, rfl⟩, rfl, by simp, by simp [Task.ofPc, Task.scan],
          fun l i hwake hgive => ?_⟩
        exact absurd ⟨addr, n, j, htask, hj, hfull, hexit⟩ (hgive (hold l i hwake))
      · refine ⟨⟨rfl, rfl⟩, .inl ⟨rfl, rfl, rfl, rfl⟩, rfl, by simp, hscan _, fun l i hwake _ => ?_⟩
        exact ⟨.test 0, by rw [hold l i hwake]; rfl, Nat.zero_le _⟩
      · exact ⟨⟨rfl, rfl⟩, .inr (.inr (.inl ⟨hfull, rfl, fun _ => rfl⟩)), rfl, by simp,
          by simp [Task.ofPc, Task.scan], fun l i hwake _ => hold l i hwake⟩
      · refine ⟨⟨rfl, rfl⟩, .inl ⟨rfl, rfl, rfl, rfl⟩, rfl, by simp, hscan _, fun l i hwake _ => ?_⟩
        exact ⟨.test 0, by rw [hold l i hwake]; rfl, Nat.zero_le _⟩
    | read n got =>
      simp only [Ipc.turn, Ipc.bodyTurn, Ipc.pipereadTurn]
      split_ifs <;> exact .still rfl rfl (by simp) rfl (hidle (by simp [Task.toWake, Task.scan]))
    | close writable =>
      have hnone := hidle (by simp [Task.toWake, Task.scan])
      refine ⟨by cases writable <;> exact ⟨rfl, rfl⟩, ?_, rfl, by simp [Ipc.turn, Ipc.bodyTurn],
        hscan _, fun l i hwake => absurd hwake (hnone l i)⟩
      cases writable with
      | false => exact .inr (.inr (.inr (.inr rfl)))
      | true =>
        exact .inr (.inr (.inr (.inl ⟨rfl, fun i => ⟨.test 0, rfl, Nat.zero_le _⟩⟩)))
  | copy =>
    have hold : ∀ l i, (s.tasks q).toWake l i → l = sideList k c.wakes := by
      rw [htask]
      intro l i
      cases c <;> exact id
    cases c with
    | read n got =>
      simp only [Ipc.turn, Ipc.copyTurn]
      split
      · next hmore =>
        exact ⟨⟨rfl, rfl⟩, .inr (.inl ⟨hmore.2, fun _ => rfl⟩), rfl, by simp,
          by simp [Task.ofPc, Task.scan], fun l i hwake _ => hold l i hwake⟩
      · refine ⟨⟨rfl, rfl⟩, .inl ⟨rfl, rfl, rfl, rfl⟩, rfl, by simp, hscan _, fun l i hwake _ => ?_⟩
        exact ⟨.test 0, by rw [hold l i hwake]; rfl, Nat.zero_le _⟩
    | _ =>
      exact ⟨⟨rfl, rfl⟩, .inl ⟨rfl, rfl, rfl, rfl⟩, rfl, by simp [Ipc.turn, Ipc.copyTurn],
        by simp [Ipc.turn, Ipc.copyTurn, Task.ofPc, Task.scan], fun l i hwake _ => hold l i hwake⟩
  | wakeupselect w => exact absurd rfl (h w)
  | leave =>
    have hnone := hidle (by cases c <;> simp [Task.toWake, Task.scan])
    cases c with
    | write addr n j =>
      simp only [Ipc.turn, Ipc.leaveTurn]
      split <;> exact .still rfl rfl (by simp) rfl hnone
    | _ => exact .still rfl rfl (by simp [Ipc.turn, Ipc.leaveTurn]) rfl hnone
  | _ =>
    have hnone := hidle (by cases c <;> simp [Task.toWake, Task.scan])
    simp only [Ipc.turn]
    try split
    all_goals exact .still rfl rfl (by simp) rfl hnone

omit [DecidableEq ι] in
theorem Turned.ready (ht : Turned q k s t) (h : 0 < pipeReady t.pipe m) :
    0 < pipeReady (s.pipes k) m ∨
      ∀ i, (Task.ofPc k t.pc).toWake ((Desc.pipe k).list m.selid) i := by
  have hturn := ht.ends
  cases m with
  | read =>
    rw [pipeReady, pipereadable_pos] at h ⊢
    obtain ⟨hr, hw, _, ho⟩ | ⟨hsome, _⟩ | ⟨_, _, hwake⟩ | ⟨_, hwake⟩ | hshut := hturn
    · rw [Ipc.Pipe.empty, hr, hw, ho] at h
      exact .inl h
    · exact .inl (.inl hsome)
    · exact .inr hwake
    · exact .inr hwake
    · rw [hshut] at h
      exact .inl h
  | write =>
    rw [pipeReady, pipewriteable_pos] at h ⊢
    obtain ⟨hr, hw, ho, _⟩ | ⟨_, hwake⟩ | ⟨hroom, ho, _⟩ | ⟨hshut, _⟩ | hshut := hturn
    · rw [Ipc.Pipe.full, hr, hw, ho] at h
      exact .inl h
    · exact .inr hwake
    · rw [ho] at h
      exact .inl ⟨h.1, hroom⟩
    · rw [hshut] at h
      exact .inl h
    · rw [hshut] at h
      exact absurd h.1 (by simp [Ipc.Pipe.shut])

end Turned

end Pipes

variable {a : Args} {ofile : ℕ → Ptr (Desc κ)} {s s' : Kernel κ ι}

structure Sound (me : ι) (a : Args) (ofile : ℕ → Ptr (Desc κ)) (s : Kernel κ ι) : Prop where
  paired : ∀ l i p, (s.lists l).sel i = some p → (s.lists l).lk i = some p
  idle : s.tasks me = .idle
  killed : s.killed me = false
  lock : s.call.pc ≠ .asleep → s.call.pc ≠ .done → s.locks me = some me
  woken : s.woken = true → s.call.pc = .asleep
  room : ∀ x m d, a.selected x m = true → ofile x = .file d →
    Room me (s.lists (d.list m.selid))
  scans : ∀ q l w, (s.tasks q).scan = some (l, w) → ScanOk me (s.lists l) s.locks q w
  unready : ∀ x m d, a.selected x m = true → ofile x = .file d → between s.call (rank x m) →
    ¬ Ready s m d
  waiting : ∀ x m d, a.selected x m = true → ofile x = .file d → listed s.call (rank x m) →
    s.woken = false → Waiting me s m d

variable [DecidableEq κ]

structure Move (me q : ι) (s s' : Kernel κ ι) : Prop where
  lists : s'.lists = s.lists
  call : s'.call = s.call
  killed : q ≠ me → s'.killed me = s.killed me
  woken : s'.woken = s.woken ∨ s'.woken = true ∧ s.call.pc = .asleep
  lockStep : LockStep q s.locks s'.locks
  others : ∀ q', q' ≠ q → s'.tasks q' = s.tasks q' ∨
    ∃ k side, s'.tasks q' = (s.tasks q').wakeup k side
  scan : ∀ l w, (s'.tasks q).scan = some (l, w) → ScanOk me (s'.lists l) s'.locks q w
  ready : ∀ m d, Ready s' m d → Ready s m d ∨ ∀ i, (s'.tasks q).toWake (d.list m.selid) i
  toWake : ∀ l i, (s.tasks q).toWake l i → (s.lists l).sel i = some me →
    (∀ k, l = .read k → ¬ GivesUp s q k) → (s'.tasks q).toWake l i ∨ s'.woken = true ∨
      s.locks me = some q ∧ s.call.pc ≠ .asleep

theorem wakeup_scan (k : κ) (side : Ipc.Side) (t : Task κ ι) : (t.wakeup k side).scan = t.scan := by
  cases t with
  | pipe k' c stage =>
    cases stage with
    | asleep =>
      simp only [Task.wakeup]
      split <;> rfl
    | _ => rfl
  | _ => rfl

theorem wakeup_toWake (k : κ) (side : Ipc.Side) (t : Task κ ι) (l : ListId κ)
    (i : Fin Ipc.NSELPROC) : (t.wakeup k side).toWake l i ↔ t.toWake l i := by
  cases t with
  | pipe k' c stage =>
    cases stage with
    | asleep =>
      simp only [Task.wakeup]
      split
      · cases c <;> simp [Task.toWake, Task.scan]
      · exact Iff.rfl
    | _ => exact Iff.rfl
  | _ => exact Iff.rfl

theorem Move.scan_eq (hm : Move me q s s') {q' : ι} (hq : q' ≠ q) :
    (s'.tasks q').scan = (s.tasks q').scan := by
  obtain h | ⟨k, side, h⟩ := hm.others q' hq
  · rw [h]
  · rw [h, wakeup_scan]

theorem Move.toWake_iff (hm : Move me q s s') {q' : ι} (hq : q' ≠ q) (l : ListId κ)
    (i : Fin Ipc.NSELPROC) : (s'.tasks q').toWake l i ↔ (s.tasks q').toWake l i := by
  obtain h | ⟨k, side, h⟩ := hm.others q' hq
  · rw [h]
  · rw [h, wakeup_toWake]

theorem Sound.move (h : Sound me a ofile s) (hm : Move me q s s') (hq : q ≠ me)
    (hbetween : ∀ x m d, a.selected x m = true → ofile x = .file d →
      between s.call (rank x m) → Ready s' m d → Ready s m d)
    (hgive : ∀ x k, a.selected x .read = true → ofile x = .file (.pipe k) →
      listed s.call (rank x .read) → ¬ GivesUp s q k) : Sound me a ofile s' where
  paired := by
    rw [hm.lists]
    exact h.paired
  idle := by
    obtain hsame | ⟨k, side, hwake⟩ := hm.others me (Ne.symm hq)
    · rw [hsame, h.idle]
    · rw [hwake, h.idle]
      rfl
  killed := by rw [hm.killed hq, h.killed]
  lock hsleep hdone := by
    rw [hm.call] at hsleep hdone
    exact hm.lockStep.keeps (Ne.symm hq) (h.lock hsleep hdone)
  woken hw := by
    rw [hm.call]
    obtain hsame | ⟨_, hsleep⟩ := hm.woken
    · rw [hsame] at hw
      exact h.woken hw
    · exact hsleep
  room := by
    rw [hm.lists]
    exact h.room
  scans q' l w hscan := by
    by_cases hq' : q' = q
    · subst hq'
      exact hm.scan l w hscan
    · rw [hm.scan_eq hq'] at hscan
      rw [hm.lists]
      exact (h.scans q' l w hscan).lockStep hq' hm.lockStep
  unready x m d hsel hd hb hready := by
    rw [hm.call] at hb
    exact h.unready x m d hsel hd hb (hbetween x m d hsel hd hb hready)
  waiting x m d hsel hd hlisted hwoken := by
    rw [hm.call] at hlisted
    have hwoken' : s.woken = false := by
      obtain hsame | ⟨htrue, _⟩ := hm.woken
      · rw [← hsame, hwoken]
      · rw [hwoken] at htrue
        cases htrue
    obtain ⟨i, hi, hwake⟩ := h.waiting x m d hsel hd hlisted hwoken'
    refine ⟨i, by rw [hm.lists, hi], fun hready => ?_⟩
    obtain hready | hall := hm.ready m d hready
    · obtain ⟨q', hq'⟩ := hwake hready
      by_cases hqq : q' = q
      · subst hqq
        have hkeep : ∀ k, d.list m.selid = .read k → ¬ GivesUp s q' k := by
          intro k hk
          cases m with
          | read =>
            cases d with
            | pipe k' =>
              obtain rfl : k' = k := ListId.read.inj hk
              exact hgive x k' hsel hd hlisted
            | console => cases hk
          | write =>
            cases d with
            | pipe k' => cases hk
            | console => cases hk
        obtain hnew | hnew | ⟨hlock, hsleep⟩ := hm.toWake _ i hq' hi hkeep
        · exact ⟨q', hnew⟩
        · rw [hwoken] at hnew
          exact absurd hnew (by simp)
        · -- the lock is the process's own: nobody wakes it before it sleeps
          have hdone : s.call.pc ≠ .done := by
            intro hdone
            simp only [listed, hdone] at hlisted
          rw [h.lock hsleep hdone] at hlock
          exact absurd (Option.some.inj hlock).symm hq
      · exact ⟨q', (hm.toWake_iff hqq _ i).mpr hq'⟩
    · exact ⟨q, hall i⟩

variable {t : Task κ ι}

theorem Move.quiet (hlists : s'.lists = s.lists) (hcall : s'.call = s.call)
    (hkilled : q ≠ me → s'.killed me = s.killed me) (hwoken : s'.woken = s.woken)
    (hlocks : s'.locks = s.locks) (htask : s'.tasks q = t)
    (hothers : ∀ q', q' ≠ q → s'.tasks q' = s.tasks q' ∨
      ∃ k side, s'.tasks q' = (s.tasks q').wakeup k side)
    (hscan : ∀ l w, t.scan = some (l, w) → w = .test 0)
    (hready : ∀ m d, Ready s' m d → Ready s m d ∨ ∀ i, t.toWake (d.list m.selid) i)
    (hwake : ∀ l i, (s.tasks q).toWake l i → (∀ k, l = .read k → ¬ GivesUp s q k) → t.toWake l i) :
    Move me q s s' where
  lists := hlists
  call := hcall
  killed := hkilled
  woken := .inl hwoken
  lockStep := by
    rw [hlocks]
    exact .refl q s.locks
  others := hothers
  scan l w hw := by
    rw [htask] at hw
    rw [hscan l w hw]
    trivial
  ready m d hr := by
    rw [htask]
    exact hready m d hr
  toWake l i hold _ hgive := by
    rw [htask]
    exact .inl (hwake l i hold hgive)

omit [DecidableEq κ] in
theorem pipe_list (s : Kernel κ ι) (k : κ) (side : Ipc.Side) :
    (s.pipes k).list side = s.lists (sideList k side) := by
  cases side <;> rfl

omit [DecidableEq κ] in
theorem ready_pipe (s : Kernel κ ι) (m : Mode) (k : κ) :
    s.ready false m (.pipe k) = pipeReady (s.pipes k) m := by
  cases m <;> rfl

theorem lists_pipe (s : Kernel κ ι) (k : κ) (P : Ipc.Pipe ι) (locks : ι → Option ι)
    (tasks : ι → Task κ ι) (hread : P.selprocread = (s.pipes k).selprocread)
    (hwrite : P.selprocwrite = (s.pipes k).selprocwrite) :
    ({ s with pipes := update s.pipes k P, locks := locks, tasks := tasks } :
      Kernel κ ι).lists = s.lists := by
  funext l
  cases l with
  | console => rfl
  | read k' =>
    by_cases hk : k' = k
    · subst hk
      simp only [Kernel.lists, update_self, hread]
    · simp only [Kernel.lists, update_of_ne hk]
  | write k' =>
    by_cases hk : k' = k
    · subst hk
      simp only [Kernel.lists, update_self, hwrite]
    · simp only [Kernel.lists, update_of_ne hk]

theorem Move.same (h : Sound me a ofile s) (hlists : s'.lists = s.lists) (hcall : s'.call = s.call)
    (hkilled : q ≠ me → s'.killed me = s.killed me) (hwoken : s'.woken = s.woken)
    (hlocks : s'.locks = s.locks) (hothers : ∀ q', q' ≠ q → s'.tasks q' = s.tasks q')
    (hscan : (s'.tasks q).scan = (s.tasks q).scan)
    (hwake : ∀ l i, (s'.tasks q).toWake l i ↔ (s.tasks q).toWake l i)
    (hready : ∀ m d, Ready s' m d → Ready s m d) : Move me q s s' where
  lists := hlists
  call := hcall
  killed := hkilled
  woken := .inl hwoken
  lockStep := by
    rw [hlocks]
    exact .refl q s.locks
  others q' hq' := .inl (hothers q' hq')
  scan l w hw := by
    rw [hscan] at hw
    rw [hlists, hlocks]
    exact h.scans q l w hw
  ready m d hr := .inl (hready m d hr)
  toWake l i hold _ _ := .inl ((hwake l i).mpr hold)

theorem Move.refl (h : Sound me a ofile s) (q : ι) : Move me q s s :=
  .same h rfl rfl (fun _ => rfl) rfl rfl (fun _ _ => rfl) rfl (fun _ _ => Iff.rfl) fun _ _ => id

variable [DecidableEq ι]

omit [DecidableEq κ] in
theorem deliver_eq (s : Kernel κ ι) (me : ι) (e : Ipc.Event ι) :
    ∃ b, s.deliver me e = { s with woken := b } ∧
      (b = s.woken ∨ b = true ∧ s.call.pc = .asleep) := by
  unfold Kernel.deliver
  split
  · unfold Kernel.wakeupSelid
    split
    · next hp => exact ⟨true, rfl, .inr ⟨rfl, hp.2⟩⟩
    · exact ⟨s.woken, rfl, .inl rfl⟩
  · exact ⟨s.woken, rfl, .inl rfl⟩

variable (h : Sound me a ofile s)
include h

theorem Move.scanning {l : ListId κ} {w : Ipc.WakePc ι}
    {r : Option (Ipc.WakePc ι) × (ι → Option ι) × Ipc.Event ι}
    (hscan : (s.tasks q).scan = some (l, w))
    (hr : Ipc.wakeupselect q (s.lists l) s.locks w = r)
    (ht : ∀ l' w', t.scan = some (l', w') ↔ l' = l ∧ r.1 = some w') :
    Move me q s (({ s with
      locks := r.2.1
      tasks := update s.tasks q t } : Kernel κ ι).deliver me r.2.2) := by
  have hstep := scanStep_wakeupselect (h.paired l) (h.scans q l w hscan)
  rw [hr] at hstep
  obtain ⟨b, hb, hwoken⟩ := deliver_eq ({ s with
      locks := r.2.1
      tasks := update s.tasks q t } : Kernel κ ι) me r.2.2
  have hwake : ∀ i, (s.lists l).sel i = some me → before i w → t.toWake l i ∨ b = true ∨
      s.locks me = some q ∧ s.call.pc ≠ .asleep := by
    intro i hi hbefore
    obtain ⟨w', hw', hbefore'⟩ | ⟨hevent, hlock⟩ := hstep.reach i hi hbefore
    · exact .inl ((toWake_scan ((ht l w').mpr ⟨rfl, hw'⟩)).mpr ⟨rfl, hbefore'⟩)
    · by_cases hpc : s.call.pc = .asleep
      · refine .inr (.inl ?_)
        have hb' := congrArg Kernel.woken hb
        simp only [hevent, Kernel.deliver, Kernel.wakeupSelid, hpc, and_self, if_true] at hb'
        exact hb'.symm
      · exact .inr (.inr ⟨hlock, hpc⟩)
  rw [hb]
  constructor
  · rfl
  · rfl
  · exact fun _ => rfl
  · exact hwoken
  · exact hstep.lockStep
  · exact fun q' hq' => .inl (update_of_ne hq' t s.tasks)
  · intro l' w' hw'
    simp only [update_self] at hw'
    obtain ⟨rfl, hw'⟩ := (ht l' w').mp hw'
    exact hstep.ok w' hw'
  · exact fun m d hready => .inl hready
  · intro l' i hold hi _
    obtain ⟨rfl, hbefore⟩ := (toWake_scan hscan).mp hold
    simp only [update_self]
    exact hwake i hi hbefore

theorem Move.pipeScan {k : κ} {c : Ipc.Call} {w : Ipc.WakePc ι}
    (htask : s.tasks q = .pipe k c (.wakeupselect w)) :
    Move me q s (s.pipeStep me q k c (.wakeupselect w)) := by
  have hscan : (s.tasks q).scan = some (sideList k c.wakes, w) := by
    rw [htask]
    rfl
  have hevent := (scanStep_wakeupselect (h.paired _) (h.scans q _ w hscan)).event
  rcases hr : Ipc.wakeupselect q (s.lists (sideList k c.wakes)) s.locks w with ⟨w', locks, e⟩
  rw [hr] at hevent
  have hdeliver : ∀ s₁ : Kernel κ ι, (match e with
      | .wakeup side => s₁.wakeup k side
      | e => s₁.deliver me e) = s₁.deliver me e := by
    intro s₁
    cases e with
    | wakeup side => exact absurd rfl (hevent side)
    | _ => rfl
  cases w' with
  | none =>
    have hmove := Move.scanning (t := .pipe k c .wakeup) h hscan hr (by simp [Task.scan])
    simpa only [Kernel.pipeStep, Ipc.turn, Ipc.wakeupselectTurn, pipe_list, hr,
      update_eq_self, hdeliver, Task.ofPc] using hmove
  | some w' =>
    have hmove := Move.scanning (t := .pipe k c (.wakeupselect w')) h hscan hr
      (by simp [Task.scan, eq_comm])
    simpa only [Kernel.pipeStep, Ipc.turn, Ipc.wakeupselectTurn, pipe_list, hr,
      update_eq_self, hdeliver, Task.ofPc] using hmove

theorem Move.pipeStep {k : κ} {c : Ipc.Call} {stage : Ipc.Stage ι}
    (htask : s.tasks q = .pipe k c stage) : Move me q s (s.pipeStep me q k c stage) := by
  by_cases hw : ∃ w, stage = .wakeupselect w
  · obtain ⟨w, rfl⟩ := hw
    exact .pipeScan h htask
  · have hstage : ∀ w, stage ≠ .wakeupselect w := fun w hstage => hw ⟨w, hstage⟩
    have ht := turned htask hstage
    unfold Kernel.pipeStep
    generalize Ipc.turn (s.killed q) (s.pipes k) s.locks q c stage = t at ht
    have hready' : ∀ s₁ : Kernel κ ι, s₁.pipes = update s.pipes k t.pipe →
        s₁.input = s.input → ∀ m d, Ready s₁ m d →
        Ready s m d ∨ ∀ i, (Task.ofPc k t.pc).toWake (d.list m.selid) i := by
      intro s₁ hpipes hinput m d hr
      cases d with
      | console =>
        left
        cases m
        · rw [Ready, Kernel.ready, fileReady, hinput] at hr
          exact hr
        · exact hr
      | pipe k' =>
        rw [Ready, ready_pipe, hpipes] at hr
        rw [Ready, ready_pipe]
        by_cases hk : k' = k
        · subst hk
          rw [update_self] at hr
          exact ht.ready hr
        · rw [update_of_ne hk] at hr
          exact .inl hr
    dsimp only
    split
    · next side _ =>
      refine Move.quiet (t := (Task.ofPc k t.pc).wakeup k side) ?_ rfl (fun _ => rfl) rfl ht.locks
        ?_ (fun q' hq' => .inr ⟨k, side, ?_⟩) ?_ ?_ ?_
      · exact lists_pipe s k t.pipe _ _ ht.lists.1 ht.lists.2
      · simp only [Kernel.wakeup, update_self]
      · simp only [Kernel.wakeup, update_of_ne hq']
      · rw [wakeup_scan]
        exact ht.scan
      · intro m d hr
        simp only [wakeup_toWake]
        refine hready' _ ?_ ?_ m d hr <;> rfl
      · intro l i hold hgive
        rw [wakeup_toWake]
        exact ht.toWake l i hold (hgive k)
    · next e hside =>
      have hdeliver : ∀ s₁ : Kernel κ ι, s₁.deliver me t.event = s₁ := by
        intro s₁
        unfold Kernel.deliver
        split
        · next p hp => exact absurd hp (ht.event p)
        · rfl
      rw [hdeliver]
      refine Move.quiet (t := Task.ofPc k t.pc) ?_ rfl (fun _ => rfl) rfl ht.locks ?_
        (fun q' hq' => .inl ?_) ht.scan (hready' _ rfl rfl) fun l i hold hgive => ?_
      · exact lists_pipe s k t.pipe _ _ ht.lists.1 ht.lists.2
      · exact update_self ..
      · exact update_of_ne hq' ..
      · exact ht.toWake l i hold (hgive k)

theorem Move.intrStep {cs : List Byte} {stage : IntrStage ι}
    (htask : s.tasks q = .consoleintr cs stage) : Move me q s (s.intrStep me q cs stage) := by
  cases stage with
  | enter =>
    have hidle : ∀ l i, ¬ (s.tasks q).toWake l i := by
      intro l i hwake
      rw [htask] at hwake
      exact absurd hwake (by simp [Task.toWake, Task.scan])
    simp only [Kernel.intrStep]
    split
    · refine .quiet rfl rfl (fun _ => rfl) rfl rfl (update_self ..)
        (fun q' hq' => .inl (update_of_ne hq' ..)) (by simp [Task.scan])
        (fun m d hr => .inl hr) fun l i hwake _ => absurd hwake (hidle l i)
    · exact .quiet rfl rfl (fun _ => rfl) rfl rfl htask (fun _ _ => .inl rfl) (by simp [Task.scan])
        (fun m d hr => .inl hr) fun l i hwake _ => absurd hwake (hidle l i)
  | body =>
    have hidle : ∀ l i, ¬ (s.tasks q).toWake l i := by
      intro l i hwake
      rw [htask] at hwake
      exact absurd hwake (by simp [Task.toWake, Task.scan])
    cases cs with
    | nil =>
      exact .quiet rfl rfl (fun _ => rfl) rfl rfl (update_self ..)
        (fun q' hq' => .inl (update_of_ne hq' ..)) (by simp [Task.scan])
        (fun m d hr => .inl hr) fun l i hwake _ => absurd hwake (hidle l i)
    | cons c cs =>
      refine .quiet rfl rfl (fun _ => rfl) rfl rfl (update_self ..)
        (fun q' hq' => .inl (update_of_ne hq' ..)) (fun l w hw => ?_)
        (fun m d hr => ?_) fun l i hwake _ => absurd hwake (hidle l i)
      · split at hw
        · simp only [Task.scan, Option.some.injEq, Prod.mk.injEq] at hw
          exact hw.2.symm
        · cases hw
      · cases hcommit : (s.input.key c).2 with
        | true =>
          cases d with
          | pipe k =>
            rw [Ready, ready_pipe] at hr ⊢
            exact .inl hr
          | console => exact .inr fun i => ⟨.test 0, rfl, Nat.zero_le _⟩
        | false =>
          left
          cases d with
          | pipe k =>
            rw [Ready, ready_pipe] at hr ⊢
            exact hr
          | console =>
            cases m with
            | write => exact hr
            | read =>
              simp only [Ready, Kernel.ready, fileReady, consolereadable_pos] at hr ⊢
              exact (Console.Input.key_readable hcommit).mp hr
  | wakeupselect w =>
    have hscan : (s.tasks q).scan = some (.console, w) := by
      rw [htask]
      rfl
    simp only [Kernel.intrStep]
    rcases hr : Ipc.wakeupselect q s.selprocread s.locks w with ⟨w', locks, e⟩
    exact .scanning h hscan hr (by cases w' <;> simp [Task.scan, eq_comm])

theorem Move.start (hscan : t.scan = none) : Move me q s (s.start q t) := by
  unfold Kernel.start
  split
  · next hidle =>
    refine .quiet rfl rfl (fun _ => rfl) rfl rfl (update_self ..)
      (fun q' hq' => .inl (update_of_ne hq' ..)) (fun l w hw => ?_) (fun m d hr => .inl hr)
      fun l i hwake _ => ?_
    · rw [hscan] at hw
      cases hw
    · rw [hidle] at hwake
      exact absurd hwake (by simp [Task.toWake, Task.scan])
  · exact .refl h q

theorem Move.kill (q : ι) : Move me q s (s.kill q) := by
  have hrouse : ∀ t : Task κ ι, t.rouse.scan = t.scan ∧ ∀ l i, t.rouse.toWake l i ↔ t.toWake l i := by
    intro t
    cases t with
    | pipe k c stage =>
      cases stage with
      | asleep => exact ⟨rfl, fun l i => by cases c <;> simp [Task.rouse, Task.toWake, Task.scan]⟩
      | _ => exact ⟨rfl, fun l i => Iff.rfl⟩
    | _ => exact ⟨rfl, fun l i => Iff.rfl⟩
  have htask : (s.kill q).tasks q = (s.tasks q).rouse := update_self ..
  refine .same h rfl rfl (fun hq => update_of_ne (Ne.symm hq) ..) rfl rfl
    (fun q' hq' => update_of_ne hq' ..) ?_ ?_ fun _ _ => id
  · rw [htask, (hrouse _).1]
  · intro l i
    rw [htask]
    exact (hrouse _).2 l i

theorem Move.consoleread (q : ι) : Move me q s (s.act me a ofile (.consoleread q)) := by
  simp only [Kernel.act]
  split
  · next hread =>
    refine .same h rfl rfl (fun _ => rfl) rfl rfl (fun _ _ => rfl) rfl (fun _ _ => Iff.rfl) ?_
    intro m d hr
    cases d with
    | pipe k =>
      rw [Ready, ready_pipe] at hr ⊢
      exact hr
    | console =>
      cases m with
      | read =>
        rw [Ready, Kernel.ready, fileReady, consolereadable_pos]
        exact hread.2
      | write => exact hr
  · exact .refl h q

theorem Move.act {act : Action κ ι} (hact : act.actor = some q) :
    Move me q s (s.act me a ofile act) := by
  cases act with
  | select => cases hact
  | pipewrite q' k addr count =>
    obtain rfl := Option.some.inj hact
    exact .start h rfl
  | piperead q' k count =>
    obtain rfl := Option.some.inj hact
    exact .start h rfl
  | pipeclose q' k writable =>
    obtain rfl := Option.some.inj hact
    exact .start h rfl
  | consoleintr q' cs =>
    obtain rfl := Option.some.inj hact
    exact .start h rfl
  | consoleread q' =>
    obtain rfl := Option.some.inj hact
    exact .consoleread h q'
  | step q' =>
    obtain rfl := Option.some.inj hact
    simp only [Kernel.act, Kernel.stepTask]
    split
    · exact .refl h q'
    · next htask => exact .pipeStep h htask
    · next htask => exact .intrStep h htask
  | kill q' =>
    obtain rfl := Option.some.inj hact
    exact .kill h q'

end Others

section Process

variable {κ ι : Type} {me : ι} {a : Args} {ofile : ℕ → Ptr (Desc κ)} {s : Kernel κ ι}

theorem ready_withLists (s : Kernel κ ι) (L : Lists κ ι) (m : Mode) (d : Desc κ) :
    (s.withLists L).ready false m d = s.ready false m d := by
  cases m <;> cases d <;> rfl

theorem next_check_found (c : Call) (hpc : c.pc = .check x m) {r : ℤ}
    (h : (c.next a r).found = false) (hx : (x : ℤ) < a.nfds) : c.found = false ∧ ¬ 0 < r := by
  simp only [Call.next, hpc, if_pos hx] at h
  split_ifs at h with hr
  · cases m <;> cases h
  · exact ⟨h, hr⟩

theorem Sound.unready_check (h : Sound me a ofile s) (hpc : s.call.pc = .check x m) {r : ℤ}
    (hr : ∀ d, a.selected x m = true → ofile x = .file d → r = s.ready false m d) :
    ∀ x' m' d, a.selected x' m' = true → ofile x' = .file d →
      between (s.call.next a r) (rank x' m') → ¬ Ready s m' d := by
  intro x' m' d hsel hd hb
  have hold := h.unready x' m' d hsel hd
  have hnext := next_check_pc (a := a) s.call hpc r
  simp only [between, hpc] at hold
  by_cases hx : (x : ℤ) < a.nfds
  · obtain ⟨y, my, hafter, hrank⟩ := after_eq .check x m
    rw [if_pos hx, hafter] at hnext
    simp only [between, hnext, hrank] at hb
    obtain ⟨hfound, hpos⟩ := next_check_found s.call hpc hb.1 hx
    obtain hlt | heq := Nat.lt_succ_iff_lt_or_eq.mp hb.2
    · exact hold ⟨hfound, hlt⟩
    · obtain ⟨rfl, rfl⟩ := rank_inj heq
      rw [Ready, ← hr d hsel hd]
      exact hpos
  · rw [if_neg hx] at hnext
    by_cases hfound : s.call.found = true
    · rw [if_pos hfound] at hnext
      simp only [between, hnext] at hb
    · exact hold ⟨by simpa using hfound, rank_lt hsel hx⟩

theorem answer_ready (s : Kernel κ ι) (m : Mode) (d : Desc κ) :
    Helper.answer (s.answer false (m.ready, .file d)) (m.ready, .file d) = s.ready false m d := by
  cases m <;> cases d <;> rfl

theorem Start.sound (h : Start me a ofile s) : Sound me a ofile s := by
  obtain ⟨selid, hcall⟩ := h.call
  constructor
  · exact h.paired
  · exact h.tasks me
  · exact h.killed
  · exact fun _ _ => h.lock
  · exact fun hw => absurd hw (by simp [h.woken])
  · exact h.room
  · intro q l w hscan
    rw [h.tasks] at hscan
    cases hscan
  · intro x m d _ _ hb
    simp only [between, hcall, Call.start] at hb
    exact absurd hb.2 (Nat.not_lt_zero _)
  · intro x m d _ _ hl
    simp only [listed, hcall, Call.start] at hl

theorem Sound.noLostWakeup (h : Sound me a ofile s) : NoLostWakeup me a ofile s := by
  intro hpc hwoken x m d hsel hd hready
  obtain ⟨i, hi, hwake⟩ := h.waiting x m d hsel hd (by simp only [listed, hpc]) hwoken
  obtain ⟨q, hq⟩ := hwake hready
  exact ⟨i, q, hi, hq⟩

structure Edited (me : ι) (L L' : Ipc.Selproc ι) : Prop where
  sel : ∀ i, L'.sel i = L.sel i ∧ L'.lk i = L.lk i ∨
    L.sel i = none ∧ L'.sel i = some me ∧ L'.lk i = some me ∨
    L.sel i = some me ∧ L'.sel i = none ∧ L'.lk i = L.lk i
  counted : Counted L → Counted L'

theorem Edited.refl (me : ι) (L : Ipc.Selproc ι) : Edited me L L :=
  ⟨fun _ => .inl ⟨rfl, rfl⟩, id⟩

variable {L L' : Ipc.Selproc ι}

theorem Edited.room (h : Edited me L L') (hroom : Room me L) : Room me L' := by
  refine ⟨h.counted hroom.counted, ?_⟩
  obtain ⟨i, hi⟩ := hroom.free
  obtain ⟨hsame, _⟩ | ⟨_, hadd, _⟩ | ⟨_, hclear, _⟩ := h.sel i
  · exact ⟨i, by rwa [hsame]⟩
  · exact ⟨i, .inr hadd⟩
  · exact ⟨i, .inl hclear⟩

theorem Edited.paired (h : Edited me L L')
    (hpaired : ∀ i p, L.sel i = some p → L.lk i = some p) (i : Fin Ipc.NSELPROC) (p : ι)
    (hi : L'.sel i = some p) : L'.lk i = some p := by
  obtain ⟨hsame, hlk⟩ | ⟨_, hadd, hlk⟩ | ⟨_, hclear, _⟩ := h.sel i
  · rw [hsame] at hi
    rw [hlk, hpaired i p hi]
  · rw [hlk, ← hadd, hi]
  · rw [hclear] at hi
    cases hi

theorem Edited.scanOk {locks locks' : ι → Option ι} {q : ι} {w : Ipc.WakePc ι}
    (h : Edited me L L') (hok : ScanOk me L locks q w) (hme : locks me ≠ some q)
    (hlocks : ∀ p, p ≠ me → locks' p = locks p) : ScanOk me L' locks' q w := by
  have hkeep : ∀ j p, p ≠ me → L.sel j = some p → L'.sel j = some p ∧ L'.lk j = L.lk j := by
    intro j p hp hj
    obtain ⟨hsame, hlk⟩ | ⟨hnone, _⟩ | ⟨hmine, _⟩ := h.sel j
    · exact ⟨hsame.trans hj, hlk⟩
    · rw [hj] at hnone
      cases hnone
    · rw [hj] at hmine
      exact absurd (Option.some.inj hmine) hp
  have hheld : ∀ j, (∃ p, L.lk j = some p ∧ locks p = some q ∧ (p ≠ me → L.sel j = some p)) →
      ∃ p, L'.lk j = some p ∧ locks' p = some q ∧ (p ≠ me → L'.sel j = some p) := by
    rintro j ⟨p, hlk, hlock, hsel⟩
    have hp : p ≠ me := by
      rintro rfl
      exact hme hlock
    obtain ⟨hsel', hlk'⟩ := hkeep j p hp (hsel hp)
    exact ⟨p, hlk'.trans hlk, (hlocks p hp).trans hlock, fun _ => hsel'⟩
  cases w with
  | test j => trivial
  | acquire j p =>
    by_cases hp : p = me
    · subst hp
      refine ⟨?_, fun hne => absurd rfl hne⟩
      obtain ⟨_, hlk⟩ | ⟨_, _, hlk⟩ | ⟨_, _, hlk⟩ := h.sel j
      · exact hlk.trans hok.1
      · exact hlk
      · exact hlk.trans hok.1
    · obtain ⟨hsel, hlk⟩ := hkeep j p hp (hok.2 hp)
      exact ⟨hlk.trans hok.1, fun _ => hsel⟩
  | wakeup j => exact hheld j hok
  | release j => exact hheld j hok

/-- Entries of the process have come in. -/
def Added (me : ι) (L L' : Ipc.Selproc ι) : Prop :=
  ∀ i, L'.sel i = L.sel i ∧ L'.lk i = L.lk i ∨
    L.sel i = none ∧ L'.sel i = some me ∧ L'.lk i = some me

theorem Added.keeps {p : ι} (h : Added me L L') (hi : L.sel i = some p) : L'.sel i = some p := by
  obtain ⟨hsame, _⟩ | ⟨hnone, _⟩ := h i
  · rw [hsame, hi]
  · rw [hi] at hnone
    cases hnone

theorem addselid_added (me : ι) (L : Ipc.Selproc ι) : Added me L (Ipc.addselid L me) := by
  intro i
  unfold Ipc.addselid
  split
  · next j hj =>
    have hfree : L.sel j = none := by simpa using List.find?_some hj
    by_cases hij : i = j
    · subst hij
      exact .inr ⟨hfree, update_self .., update_self ..⟩
    · exact .inl ⟨update_of_ne hij .., update_of_ne hij ..⟩
  · exact .inl ⟨rfl, rfl⟩

theorem entries_lt {sel : Fin Ipc.NSELPROC → Option ι} (h : sel i = none) :
    entries sel < Ipc.NSELPROC := by
  have hsum : entries sel < ∑ _i : Fin Ipc.NSELPROC, 1 := by
    refine Finset.sum_lt_sum (fun j _ => ?_) ⟨i, Finset.mem_univ i, by simp [h]⟩
    split <;> omega
  simpa using hsum

variable [DecidableEq ι]

theorem clearselid_lk (L : Ipc.Selproc ι) (p : ι) : (Ipc.clearselid L p).lk = L.lk := by
  unfold Ipc.clearselid
  generalize List.finRange Ipc.NSELPROC = l
  induction l generalizing L with
  | nil => rfl
  | cons i l ih =>
    rw [List.foldl_cons, ih]
    unfold Ipc.clearEntry
    split <;> rfl

theorem select_added (me : ι) (L : Ipc.Selproc ι) (l : ListId κ) :
    Added me L (Op.select.apply me L l) := by
  have hpipe : Added me L (pipeselect me L) := by
    unfold pipeselect
    split
    · exact addselid_added me L
    · exact fun _ => .inl ⟨rfl, rfl⟩
  cases l <;> first | exact hpipe | exact addselid_added me L

theorem Room.has_select (h : Room me L) (l : ListId κ) : Has (Op.select.apply me L l) me := by
  obtain ⟨i, hi | hi⟩ := h.free
  · have hadd : Has (Ipc.addselid L me) me := by
      unfold Ipc.addselid
      split
      · next j _ => exact ⟨j, update_self ..⟩
      · next hfull =>
        have hno := List.find?_eq_none.mp hfull i (List.mem_finRange i)
        simp [hi] at hno
    have hcount : L.selcount < Ipc.NSELPROC := by
      rw [show L.selcount = entries L.sel from h.counted]
      exact_mod_cast entries_lt hi
    cases l <;> simpa only [Op.apply, pipeselect, if_pos hcount] using hadd
  · exact ⟨i, (select_added me L l).keeps hi⟩

theorem apply_edited (me : ι) (L : Ipc.Selproc ι) (op : Op) (l : ListId κ) :
    Edited me L (op.apply me L l) := by
  refine ⟨fun i => ?_, fun h => counted_apply h op l me⟩
  cases op with
  | select => exact (select_added me L l i).imp_right .inl
  | clrsel =>
    rw [Op.apply, clearselid_sel, clearselid_lk]
    split_ifs with hi
    · exact .inr (.inr ⟨hi, rfl, rfl⟩)
    · exact .inl ⟨rfl, rfl⟩

section Effect

variable [DecidableEq κ] (t : Selector κ ι) (c : Call)

theorem effect_of_apply {Q : Ipc.Selproc ι → Ipc.Selproc ι → Prop} (hrefl : ∀ L, Q L L)
    {r : Helper × Ptr (Desc κ)} (l : ListId κ)
    (happly : ∀ l op, c.target r = some (l, op) → Q (t.lists l) (op.apply me (t.lists l) l)) :
    Q (t.lists l) (t.effect me c r l) := by
  rw [effect_eq]
  split
  · next l' op htarget =>
    by_cases hl : l = l'
    · subst hl
      rw [update_self]
      exact happly l op htarget
    · rw [update_of_ne hl]
      exact hrefl _
  · exact hrefl _

theorem effect_edited (r : Helper × Ptr (Desc κ)) (l : ListId κ) :
    Edited me (t.lists l) (t.effect me c r l) :=
  effect_of_apply t c (.refl me) l fun l op _ => apply_edited me _ op l

theorem fileselect_added (p : Ptr (Desc κ)) (l : ListId κ) :
    Added me (t.lists l) (t.effect me c (.fileselect, p) l) := by
  refine effect_of_apply t c (fun _ _ => .inl ⟨rfl, rfl⟩) l fun l op htarget => ?_
  cases p with
  | file d =>
    obtain ⟨rfl, rfl⟩ := Prod.mk.inj (Option.some.inj htarget)
    exact select_added me _ _
  | _ => cases htarget

end Effect

theorem Sound.advance (h : Sound me a ofile s) (hsleep : s.call.pc ≠ .asleep)
    (hdone : s.call.pc ≠ .done) {c : Call} {L : Lists κ ι} {locks : ι → Option ι}
    (hedit : ∀ l, Edited me (s.lists l) (L l))
    (hlocks : locks = s.locks ∨
      (c.pc = .asleep ∨ c.pc = .done) ∧ locks = update s.locks me none)
    (hunready : ∀ x m d, a.selected x m = true → ofile x = .file d → between c (rank x m) →
      ¬ Ready s m d)
    (hwaiting : ∀ x m d, a.selected x m = true → ofile x = .file d → listed c (rank x m) →
      ∃ i, (L (d.list m.selid)).sel i = some me ∧
        (Ready s m d → ∃ q, (s.tasks q).toWake (d.list m.selid) i)) :
    Sound me a ofile { s.withLists L with call := c, locks := locks } := by
  have hlists : ({ s.withLists L with call := c, locks := locks } : Kernel κ ι).lists = L :=
    lists_withLists s L
  have hready : ∀ m d, Ready { s.withLists L with call := c, locks := locks } m d ↔
      Ready s m d := by
    intro m d
    rw [Ready, Ready, ← ready_withLists s L]
    exact Iff.rfl
  have hmine := h.lock hsleep hdone
  have hwoken : ¬ s.woken = true := fun hw => hsleep (h.woken hw)
  constructor
  · rw [hlists]
    exact fun l => (hedit l).paired (h.paired l)
  · exact h.idle
  · exact h.killed
  · intro hsleep' hdone'
    obtain hsame | ⟨hpc | hpc, _⟩ := hlocks
    · rw [hsame]
      exact hmine
    · exact absurd hpc hsleep'
    · exact absurd hpc hdone'
  · exact fun hw => absurd hw hwoken
  · rw [hlists]
    exact fun x m d hsel hd => (hedit _).room (h.room x m d hsel hd)
  · intro q l w hscan
    rw [hlists]
    have hq : q ≠ me := by
      rintro rfl
      rw [show (s.withLists L).tasks q = .idle from h.idle] at hscan
      cases hscan
    refine (hedit l).scanOk (h.scans q l w hscan) ?_ fun p hp => ?_
    · rw [hmine]
      exact fun heq => hq (Option.some.inj heq).symm
    · obtain hsame | ⟨_, hupdate⟩ := hlocks
      · rw [hsame]
      · rw [hupdate]
        exact update_of_ne hp ..
  · intro x m d hsel hd hb
    rw [hready]
    exact hunready x m d hsel hd hb
  · intro x m d hsel hd hl _
    rw [Waiting, hlists, hready]
    exact hwaiting x m d hsel hd hl

theorem Sound.wakes (h : Sound me a ofile s) (hpc : s.call.pc = .asleep)
    (hlock : s.locks me = none) : Sound me a ofile { s with
      call := s.call.next a 0
      woken := false
      locks := update s.locks me (some me) } := by
  have hnext : (s.call.next a 0).pc = .clear 0 .read := by simp only [Call.next, hpc]
  constructor
  · exact h.paired
  · exact h.idle
  · exact h.killed
  · exact fun _ _ => update_self ..
  · exact fun hw => absurd hw (by simp)
  · exact h.room
  · intro q l w hscan
    refine (Edited.refl me (s.lists l)).scanOk (h.scans q l w hscan) ?_ fun p hp => ?_
    · rw [hlock]
      simp
    · exact update_of_ne hp ..
  · intro x m d _ _ hb
    simp only [between, hnext] at hb
  · intro x m d _ _ hl
    simp only [listed, hnext] at hl

variable [DecidableEq κ]

theorem select_locks (c : Call) (locks : ι → Option ι) :
    (if c.pc = .done then update locks me none else locks) = locks ∨
      (c.pc = .asleep ∨ c.pc = .done) ∧
        (if c.pc = .done then update locks me none else locks) =
          update locks me none := by
  split
  · next hdone => exact .inr ⟨.inr hdone, rfl⟩
  · exact .inl rfl

def after (me : ι) (s : Kernel κ ι) (L : Lists κ ι) (c : Call) : Kernel κ ι :=
  { s.withLists L with
    call := c
    locks := if c.pc = .done then Function.update s.locks me none else s.locks }

theorem select_loop (hsleep : s.call.pc ≠ .sleep) (hasleep : s.call.pc ≠ .asleep)
    (hdone : s.call.pc ≠ .done) : s.select me a ofile =
      match s.call.request a ofile with
      | none => after me s s.lists (s.call.next a 0)
      | some q =>
        let c := s.call.next a (Helper.answer (s.answer (s.killed me) q) q)
        after me s (Selector.effect me ⟨s.call, s.lists⟩ c q) c := by
  unfold Kernel.select
  split
  · next hpc => exact absurd hpc hsleep
  · next hpc => exact absurd hpc hasleep
  · next hpc => exact absurd hpc hdone
  · cases hreq : s.call.request a ofile <;> simp only [Selector.step, hreq, after]

section Steps

variable (h : Sound me a ofile s)
include h

theorem Sound.check (hpc : s.call.pc = .check x m) : Sound me a ofile (s.select me a ofile) := by
  have hlisted : ∀ r k, ¬ listed (s.call.next a r) k := by
    intro r k
    rw [listed, next_check_pc s.call hpc]
    split_ifs
    · obtain ⟨x', m', hafter, _⟩ := after_eq .check x m
      rw [hafter]
      exact id
    · exact id
    · exact Nat.not_lt_zero k
  have hadvance : ∀ r, (∀ d, a.selected x m = true → ofile x = .file d → r = s.ready false m d) →
      Sound me a ofile (after me s s.lists (s.call.next a r)) := by
    intro r hr
    refine h.advance (by simp [hpc]) (by simp [hpc]) (fun l => .refl me _) (select_locks _ _)
      (h.unready_check hpc hr) fun x' m' d _ _ hl => absurd hl (hlisted r _)
  rw [select_loop (by simp [hpc]) (by simp [hpc]) (by simp [hpc])]
  cases hreq : s.call.request a ofile with
  | none =>
    refine hadvance 0 fun d hsel hd => ?_
    simp only [Call.request, hpc, hsel, hd, Ptr.isNull] at hreq
    simp at hreq
  | some q =>
    simp only [Call.request, hpc] at hreq
    split_ifs at hreq
    obtain rfl := Option.some.inj hreq
    have hlists : ∀ c, Selector.effect me ⟨s.call, s.lists⟩ c (m.ready, ofile x) = s.lists := by
      intro c
      cases m <;> rfl
    simp only [hlists]
    refine hadvance _ fun d _ hd => ?_
    rw [hd, h.killed, answer_ready]

theorem Sound.register (hpc : s.call.pc = .register x m) :
    Sound me a ofile (s.select me a ofile) := by
  have hunready := h.unready
  have hwaiting := h.waiting
  have hwoken : s.woken = false := by
    cases hw : s.woken
    · rfl
    · exact absurd (h.woken hw) (by simp [hpc])
  simp only [between, listed, hpc, hwoken] at hunready hwaiting
  by_cases hx : (x : ℤ) < a.nfds
  · obtain ⟨x', m', hafter, hrank⟩ := after_eq .register x m
    have hnext : ∀ r, s.call.next a r = { s.call with
        selid := if a.selected x m then m.selid else s.call.selid, pc := .register x' m' } := by
      intro r
      simp only [Call.next, hpc, if_pos hx, hafter]
    -- the descriptors before this one are in their lists, and this one after the step
    have hadvance : ∀ (selid : Word) (L : Lists κ ι), (∀ l, Edited me (s.lists l) (L l)) →
        (∀ l i, (s.lists l).sel i = some me → (L l).sel i = some me) →
        (∀ d, a.selected x m = true → ofile x = .file d → Has (L (d.list m.selid)) me) →
        Sound me a ofile (after me s L { s.call with selid := selid, pc := .register x' m' }) := by
      intro selid L hedit hkeep hhas
      refine h.advance (by simp [hpc]) (by simp [hpc]) hedit (.inl rfl)
        (fun y my d hsel hd hb => ?_) fun y my d hsel hd hl => ?_
      · simp only [between] at hb
        exact hunready y my d hsel hd (by omega)
      · simp only [listed, hrank] at hl
        obtain hlt | heq := Nat.lt_succ_iff_lt_or_eq.mp hl
        · obtain ⟨i, hi, hwake⟩ := hwaiting y my d hsel hd hlt trivial
          exact ⟨i, hkeep _ i hi, hwake⟩
        · obtain ⟨rfl, rfl⟩ := rank_inj heq
          obtain ⟨i, hi⟩ := hhas d hsel hd
          exact ⟨i, hi, fun hready => absurd hready (hunready y my d hsel hd le_rfl)⟩
    rw [select_loop (by simp [hpc]) (by simp [hpc]) (by simp [hpc])]
    cases hreq : s.call.request a ofile with
    | none =>
      simp only [hnext]
      refine hadvance _ s.lists (fun l => .refl me _) (fun _ _ => id) fun d hsel hd => ?_
      simp only [Call.request, hpc, hsel] at hreq
      simp at hreq
    | some q =>
      simp only [Call.request, hpc] at hreq
      split_ifs at hreq with hsel
      obtain rfl := Option.some.inj hreq
      simp only [hnext, if_pos hsel]
      refine hadvance _ _ (effect_edited ⟨s.call, s.lists⟩ _ _)
        (fun l i => (fileselect_added ⟨s.call, s.lists⟩ _ _ l).keeps) fun d _ hd => ?_
      simp only [hd, effect_eq, Call.target, update_self]
      exact (h.room x m d hsel hd).has_select _
  · have hreq : s.call.request a ofile = none := by
      have hsel : ¬ a.selected x m = true := fun hsel => hx (lt_of_selected hsel)
      simp only [Call.request, hpc, hsel]
      rfl
    rw [select_loop (by simp [hpc]) (by simp [hpc]) (by simp [hpc]), hreq]
    simp only [Call.next, hpc, if_neg hx]
    refine h.advance (by simp [hpc]) (by simp [hpc]) (fun l => .refl me _) (.inl rfl)
      (fun y my d _ _ hb => hb.elim) fun y my d hsel hd _ => ?_
    exact hwaiting y my d hsel hd (rank_lt hsel hx) trivial

theorem Sound.clear (hpc : s.call.pc = .clear x m) : Sound me a ofile (s.select me a ofile) := by
  have hnext : ∀ r k, ¬ between (s.call.next a r) k ∧ ¬ listed (s.call.next a r) k ∧
      (s.call.next a r).pc ≠ .done := by
    intro r k
    simp only [between, listed, Call.next, hpc]
    by_cases hx : (x : ℤ) < a.nfds
    · obtain ⟨x', m', hafter, _⟩ := after_eq .clear x m
      simp [hx, hafter]
    · simp [hx, rank]
  have hadvance : ∀ r (L : Lists κ ι), (∀ l, Edited me (s.lists l) (L l)) →
      Sound me a ofile (after me s L (s.call.next a r)) := by
    intro r L hedit
    exact h.advance (by simp [hpc]) (by simp [hpc]) hedit (select_locks _ _)
      (fun y my d _ _ hb => absurd hb (hnext r _).1)
      fun y my d _ _ hl => absurd hl (hnext r _).2.1
  rw [select_loop (by simp [hpc]) (by simp [hpc]) (by simp [hpc])]
  cases hreq : s.call.request a ofile with
  | none => exact hadvance 0 s.lists fun l => .refl me _
  | some q => exact hadvance _ _ (effect_edited ⟨s.call, s.lists⟩ _ _)

theorem Sound.select : Sound me a ofile (s.select me a ofile) := by
  cases hpc : s.call.pc with
  | check x m => exact h.check hpc
  | register x m => exact h.register hpc
  | sleep =>
    have hwaiting := h.waiting
    have hwoken : s.woken = false := by
      cases hw : s.woken
      · rfl
      · exact absurd (h.woken hw) (by simp [hpc])
    simp only [listed, hpc, hwoken] at hwaiting
    simp only [Kernel.select, hpc, Call.next]
    exact h.advance (L := s.lists) (by simp [hpc]) (by simp [hpc]) (fun l => .refl me _)
      (.inr ⟨.inl rfl, rfl⟩) (fun _ _ _ _ _ hb => hb.elim)
      fun x m d hsel hd _ => hwaiting x m d hsel hd trivial trivial
  | asleep =>
    simp only [Kernel.select, hpc]
    split
    · next hw => exact h.wakes hpc hw.2
    · exact h
  | clear x m => exact h.clear hpc
  | done =>
    simp only [Kernel.select, hpc]
    exact h

theorem Sound.step {act : Action κ ι} (hact : Regular me a ofile s act) :
    Sound me a ofile (step me a ofile s act) := by
  have hbetween := hact.between
  unfold SelectWake.step at hbetween ⊢
  split_ifs at hbetween ⊢ with hme
  · exact h
  · cases hactor : act.actor with
    | none =>
      cases act with
      | select => exact h.select
      | _ => cases hactor
    | some q =>
      have hq : q ≠ me := by
        rintro rfl
        exact hme hactor
      exact h.move (.act h hactor) hq hbetween fun x k hsel hd hl =>
        hact.givesUp x k q hsel hd hl hactor

end Steps

theorem ready_select (s : Kernel κ ι) (m : Mode) (d : Desc κ) :
    (s.select me a ofile).ready false m d = s.ready false m d := by
  have hafter : ∀ L c, (after me s L c).ready false m d = s.ready false m d := fun L c =>
    ready_withLists s L m d
  unfold Kernel.select
  split
  · cases m <;> cases d <;> rfl
  · split <;> cases m <;> cases d <;> rfl
  · rfl
  · exact hafter _ _

theorem along_select (n : ℕ) (s : Kernel κ ι) :
    Along (step me a ofile) (Regular me a ofile) s (List.replicate n .select) := by
  induction n generalizing s with
  | zero => trivial
  | succ n ih =>
    refine ⟨⟨fun x m d _ _ _ hready => ?_, fun x k q _ _ _ hact => ?_⟩, ih _⟩
    · rwa [Ready, SelectWake.step, if_neg (by simp [Action.actor]), Kernel.act, ready_select]
        at hready
    · cases hact

theorem always_wakeupPending (hs : Start me a ofile s) {acts : List (Action κ ι)}
    (hacts : Along (step me a ofile) (Regular me a ofile) s acts) :
    Always (step me a ofile) (NoLostWakeup me a ofile) s acts :=
  hacts.always hs.sound (fun _ _ h hact => h.step hact) fun _ h => h.noLostWakeup

end Process

def selproc (full : Bool) : Ipc.Selproc Bool :=
  if full then ⟨fun _ => some false, fun _ => some false, 16⟩
  else Ipc.initselproc ⟨fun _ => none, fun _ => none, 0⟩

def onePipe (full : Bool) : Kernel Unit Bool where
  pipes _ := ⟨none, fun _ => 0, 0, 0, true, true, selproc full, selproc full⟩
  consLock := none
  input := ⟨fun _ => 0, 0, 0, 0⟩
  selprocread := selproc full
  locks q := if q then some true else none
  tasks _ := .idle
  killed _ := false
  call := .start 0
  woken := false

def onlyPipe (x : ℕ) : Ptr (Desc Unit) := if x = 0 then .file (.pipe ()) else .null

def oneByte (entry : ℕ) : List (Action Unit Bool) :=
  .pipewrite false () (fun _ => 65) 1 :: List.replicate (5 + 16 * entry + 1) (.step false)

theorem onePipe_start : Start true ⟨1, 1, 0⟩ onlyPipe (onePipe false) := by
  have hfree : ∀ l i, ((onePipe false).lists l).sel i = none := by
    intro l i
    cases l <;> rfl
  constructor
  · exact ⟨0, rfl⟩
  · rfl
  · rfl
  · rfl
  · exact fun q => rfl
  · intro l i p hi
    rw [hfree] at hi
    exact absurd hi (by simp)
  · intro x m d _ _
    refine ⟨?_, 0, .inl (hfree _ _)⟩
    generalize d.list m.selid = l
    have hcounted : Counted (selproc false) := by
      simp [Counted, entries, selproc, Ipc.initselproc]
    cases l <;> exact hcounted

theorem always_wakeupPending_byte :
    Start true ⟨1, 1, 0⟩ onlyPipe (onePipe false) ∧
    Always (step true ⟨1, 1, 0⟩ onlyPipe) (NoLostWakeup true ⟨1, 1, 0⟩ onlyPipe) (onePipe false)
      (List.replicate 7 .select ++ (oneByte 1).take 3) := by
  refine ⟨onePipe_start, always_wakeupPending onePipe_start ?_⟩
  rw [along_append]
  refine ⟨along_select 7 _, ?_⟩
  -- from here on the process sleeps, and the pipe is not full
  have hstep : ∀ s : Kernel Unit Bool, s.call.pc = .asleep → ¬ (s.pipes ()).full →
      ∀ act, Regular true ⟨1, 1, 0⟩ onlyPipe s act := by
    intro s hpc hfull act
    refine ⟨fun x m d _ _ hb => ?_, fun x k q _ _ _ _ hgive => ?_⟩
    · simp only [between, hpc] at hb
    · obtain ⟨_, _, _, _, _, hk, _⟩ := hgive
      exact hfull hk
  refine ⟨hstep _ ?_ ?_ _, hstep _ ?_ ?_ _, hstep _ ?_ ?_ _, trivial⟩ <;> decide +kernel

def Task.isIdle {κ ι : Type} : Task κ ι → Bool
  | .idle => true
  | _ => false

theorem lost_of_idle {s : Kernel Unit Bool} (hpc : s.call.pc = .asleep) (hwoken : s.woken = false)
    (hready : 0 < s.ready false .read (.pipe ())) (hidle : ∀ q, (s.tasks q).isIdle = true) :
    ¬ NoLostWakeup true ⟨1, 1, 0⟩ onlyPipe s := by
  intro h
  obtain ⟨i, q, _, hwake⟩ := h hpc hwoken 0 .read (.pipe ()) (by decide) rfl hready
  have hq := hidle q
  cases htask : s.tasks q with
  | idle =>
    rw [htask] at hwake
    exact absurd hwake (by simp [Task.toWake, Task.scan])
  | _ =>
    rw [htask] at hq
    exact Bool.noConfusion hq

/-- A byte that is written after the test and before the registration, or while the list is full,
wakes nobody. -/
theorem not_wakeupPending_window :
    ¬ Always (step true ⟨1, 1, 0⟩ onlyPipe) (NoLostWakeup true ⟨1, 1, 0⟩ onlyPipe) (onePipe false)
      (List.replicate 3 .select ++ oneByte 1 ++ List.replicate 4 .select) ∧
    ¬ Always (step true ⟨1, 1, 0⟩ onlyPipe) (NoLostWakeup true ⟨1, 1, 0⟩ onlyPipe) (onePipe true)
      (List.replicate 7 .select ++ oneByte 4) := by
  constructor
  · intro h
    refine lost_of_idle ?_ ?_ ?_ ?_ (h _ List.prefix_rfl) <;> decide +kernel
  · intro h
    refine lost_of_idle ?_ ?_ ?_ ?_ (h _ List.prefix_rfl) <;> decide +kernel

end Xv6Prng.SelectWake
