import Xv6Prng.Library.LockOrder
import Xv6Prng.Library.Runs
import Xv6Prng.EntropyPools

/-!
# The locks of the kernel and their order

Every kernel path is the list of what it does with `tickslock`, `cons.lock`, `ptable.lock`,
`kmem.lock` and the locks of the entropy pools. What depends on data is a parameter: which
pool an event goes to, how often a process sleeps, whether a call of `kalloc` or `kfree` adds
an event while it holds `kmem.lock`. Other locks are left out.

Processors run the kernel in any interleaving. One that holds no lock can be interrupted.
`sched` hands the processor and `ptable.lock` to the scheduler, which goes on with any thread
that has been suspended.

The order is `tickslock`, `cons.lock` < `ptable.lock` < `kmem.lock` < pools. Two places are
against it: the scheduler takes `tickslock` under `ptable.lock`, and a reseed calls `kalloc`
and `cprintf` under the lock of a pool.
-/

namespace Xv6Prng.Locks

open LockOrder Runs

abbrev Pool := Fin MAX_POOLS

inductive Lock
  | tickslock
  | cons
  | ptable
  | kmem
  | pool (i : Pool)
  deriving DecidableEq

abbrev Path := List (Op Lock)

def addRandomEvent (i : Pool) : Path := holding (.pool i) []

def cprintf : Path := holding .cons []

def wakeup : Path := holding .ptable []

def freeMemoryEvent : Option Pool → Path
  | none => []
  | some i => addRandomEvent i

def kalloc (hook : Option Pool) : Path := holding .kmem (freeMemoryEvent hook)

def kfree (hook : Option Pool) : Path := holding .kmem (freeMemoryEvent hook)

def sha256 (hook : Option Pool) : Path := kalloc hook ++ cprintf

/-- `sleep` with one of the locks; with `ptable.lock` itself it is `sched` alone. -/
def sleep (lk : Lock) : Path :=
  [.acquire .ptable, .release lk, .park, .release .ptable, .acquire lk]

/-- `yield`, and also `sleep` with a lock that is not among the five. -/
def yield : Path := holding .ptable [.park]

structure Reseed where
  seed : Option Pool
  pools : Pool → Option Pool
  key : Option Pool
  free : Option Pool

def drainPool (i : Pool) (hook : Option Pool) : Path := holding (.pool i) (sha256 hook)

def prngreseed (r : Reseed) : Path := sha256 r.key ++ kfree r.free ++ holding .tickslock []

def reseed : Option Reseed → Path
  | none => []
  | some r =>
    kalloc r.seed ++ (List.finRange MAX_POOLS).flatMap (fun i => drainPool i (r.pools i)) ++
      prngreseed r

/-- `prngrand`; `pages` are the calls of `kalloc` and `kfree` after the reseed. -/
def prngrand (r : Option Reseed) (pages : List (Option Pool)) : Path :=
  holding .tickslock [] ++ holding (.pool 0) [] ++ reseed r ++ pages.flatMap kalloc

def printPoolsData : Path := (List.replicate MAX_POOLS cprintf).flatten

/-- The events of every eleventh `fileread` or `filewrite`. The data is skipped if it is
longer than an event may be. -/
def fileEvent : Option (Pool × Bool) → Path
  | none => []
  | some (i, data) =>
    holding .tickslock ((if data then addRandomEvent i else []) ++ addRandomEvent i)

inductive Blocking
  | wakeup
  | sleep

def Blocking.path : Blocking → Path
  | wakeup => Locks.wakeup
  | sleep => yield

def blocking (steps : List Blocking) : Path := steps.flatMap Blocking.path

/-- What is read or written. The inode of the console is locked before and after. -/
inductive Target
  | console (before after : List Blocking) (sleeps : ℕ)
  | other (steps : List Blocking)

def consoleread (sleeps : ℕ) : Path := holding .cons (List.replicate sleeps (sleep .cons)).flatten

def consolewrite : Path := holding .cons []

def fileread (event : Option (Pool × Bool)) : Target → Path
  | .console before after sleeps =>
    fileEvent event ++ blocking before ++ consoleread sleeps ++ blocking after
  | .other steps => fileEvent event ++ blocking steps

def filewrite (event : Option (Pool × Bool)) : Target → Path
  | .console before after _ =>
    fileEvent event ++ blocking before ++ consolewrite ++ blocking after
  | .other steps => fileEvent event ++ blocking steps

inductive Syscall
  | random (r : Option Reseed) (pages : List (Option Pool))
  | read (event : Option (Pool × Bool)) (target : Target)
  | write (event : Option (Pool × Bool)) (target : Target)
  | sleep (sleeps : ℕ)
  | uptime
  | fork (pages : List (Option Pool))
  | wait (sleeps : ℕ) (pages : List (Option Pool))
  | kill
  | other (pages : List (Option Pool)) (steps : List Blocking)

def syscall : Syscall → Path
  | .random r pages => printPoolsData ++ prngrand r pages
  | .read event target => fileread event target
  | .write event target => filewrite event target
  | .sleep sleeps => holding .tickslock (List.replicate sleeps (sleep .tickslock)).flatten
  | .uptime => holding .tickslock []
  | .fork pages => holding .ptable (pages.flatMap kalloc)
  | .wait sleeps pages =>
    holding .ptable ((List.replicate sleeps [.park]).flatten ++ pages.flatMap kfree)
  | .kill => holding .ptable []
  | .other pages steps => pages.flatMap kalloc ++ blocking steps

structure Key where
  wakeups : ℕ
  pool : Pool

def Key.path (k : Key) : Path :=
  (List.replicate k.wakeups wakeup).flatten ++ addRandomEvent k.pool

/-- `consoleintr`, with the lines that `procdump` prints at the end. -/
def consoleintr (keys : List Key) (lines : ℕ) : Path :=
  holding .cons (keys.flatMap Key.path) ++ (List.replicate lines cprintf).flatten

inductive Trap
  | syscall (call : Syscall)
  /-- On the first processor the clock ticks; a running process is preempted. -/
  | timer (first preempts : Bool)
  | ide (wakes : Bool)
  | kbd (keys : List Key) (lines : ℕ)
  | com1 (i : Pool) (keys : List Key) (lines : ℕ)
  | other

def tickEvent (i : Pool) : Path := holding .tickslock (addRandomEvent i)

def handle : Trap → Path
  | .syscall call => syscall call
  | .timer first preempts =>
    (if first then holding .tickslock wakeup else []) ++ (if preempts then yield else [])
  | .ide wakes => if wakes then wakeup else []
  | .kbd keys lines => consoleintr keys lines
  | .com1 i keys lines => tickEvent i ++ consoleintr keys lines
  | .other => cprintf

def trap (i : Pool) (t : Trap) : Path := tickEvent i ++ handle t

structure System (n : ℕ) where
  held : Fin n → List Lock
  todo : Fin n → Path
  waits : Fin n → Option Lock
  panicked : Fin n → Bool
  saved : List Path

def System.initial (n k : ℕ) : System n where
  held _ := []
  todo _ := []
  waits _ := none
  panicked _ := false
  saved := List.replicate k [.release .ptable]

inductive Action (n : ℕ)
  | step (c : Fin n)
  | enter (c : Fin n) (i : Pool) (t : Trap)
  | scan (c : Fin n)
  | pick (c : Fin n) (k : ℕ) (i : Pool)
  | scanned (c : Fin n)

variable {n : ℕ}

def System.panic (s : System n) (c : Fin n) : System n :=
  { s with panicked := Function.update s.panicked c true }

def System.run (s : System n) (c : Fin n) (path : Path) : System n :=
  { s with todo := Function.update s.todo c path }

def System.stepOp (s : System n) (c : Fin n) : Path → System n
  | [] => s
  | .acquire l :: rest =>
    if l ∈ s.held c then s.panic c
    else if ∃ d, l ∈ s.held d then { s with waits := Function.update s.waits c (some l) }
    else
      { s.run c rest with
        held := Function.update s.held c (l :: s.held c)
        waits := Function.update s.waits c none }
  | .release l :: rest =>
    if l ∈ s.held c then
      { s.run c rest with held := Function.update s.held c ((s.held c).erase l) }
    else s.panic c
  | .park :: rest =>
    if s.held c = [.ptable] then { s.run c [] with saved := s.saved ++ [rest] } else s.panic c

def step (s : System n) : Action n → System n
  | .step c => if s.panicked c then s else s.stepOp c (s.todo c)
  | .enter c i t =>
    if s.panicked c = false ∧ s.held c = [] ∧ s.waits c = none then s.run c (trap i t ++ s.todo c)
    else s
  | .scan c =>
    if s.panicked c = false ∧ s.held c = [] ∧ s.todo c = [] then s.run c [.acquire .ptable] else s
  | .pick c k i =>
    if s.panicked c = false ∧ s.held c = [.ptable] ∧ s.todo c = [] then
      match s.saved[k]? with
      | none => s
      | some rest => { s.run c (tickEvent i ++ rest) with saved := s.saved.eraseIdx k }
    else s
  | .scanned c =>
    if s.panicked c = false ∧ s.held c = [.ptable] ∧ s.todo c = [] then
      s.run c [.release .ptable]
    else s

def System.Deadlocked (s : System n) : Prop := LockOrder.Deadlocked s.held s.waits

def rank : Lock → ℕ
  | .tickslock | .cons => 0
  | .ptable => 1
  | .kmem => 2
  | .pool _ => 3

/-- The acquisitions against the order: `tickslock` in the scheduler, and everything that is
taken under the lock of a pool. -/
def AgainstOrder (hl : List Lock) (l : Lock) : Prop :=
  (l = .tickslock ∧ .ptable ∈ hl) ∨ ∃ i, .pool i ∈ hl

def May (hl : List Lock) (l : Lock) : Prop := AgainstOrder hl l ∨ ∀ k ∈ hl, rank k < rank l

def OpenFrom (r : ℕ) (hl : List Lock) : Prop := (∃ i, .pool i ∈ hl) ∨ ∀ k ∈ hl, rank k < r

abbrev Orderly := LockOrder.Orderly May [.ptable]

section Order

variable {hl : List Lock} {r : ℕ} {l : Lock}

theorem openFrom_nil : OpenFrom r [] := Or.inr fun _ hk => absurd hk List.not_mem_nil

theorem OpenFrom.may (h : OpenFrom (rank l) hl) : May hl l := h.imp_left Or.inr

theorem OpenFrom.cons (h : OpenFrom (rank l) hl) (hr : rank l < r) : OpenFrom r (l :: hl) := by
  cases h with
  | inl hpool =>
    obtain ⟨i, hi⟩ := hpool
    exact Or.inl ⟨i, List.mem_cons_of_mem l hi⟩
  | inr hlow =>
    refine Or.inr fun k hk => ?_
    cases List.mem_cons.mp hk with
    | inl hkl => exact hkl ▸ hr
    | inr hmem => exact (hlow k hmem).trans hr

theorem OpenFrom.mono {r' : ℕ} (h : OpenFrom r hl) (hr : r ≤ r') : OpenFrom r' hl :=
  h.imp_right fun hlow k hk => (hlow k hk).trans_le hr

theorem holding_orderly {ops : Path} (h : OpenFrom (rank l) hl)
    (hops : Orderly (l :: hl) ops (l :: hl)) : Orderly hl (holding l ops) hl :=
  hops.holding h.may

theorem addRandomEvent_orderly (h : OpenFrom 3 hl) (i : Pool) : Orderly hl (addRandomEvent i) hl :=
  holding_orderly h .nil

theorem cprintf_orderly (h : OpenFrom 0 hl) : Orderly hl cprintf hl := holding_orderly h .nil

theorem wakeup_orderly (h : OpenFrom 1 hl) : Orderly hl wakeup hl := holding_orderly h .nil

theorem kalloc_orderly (h : OpenFrom 2 hl) (hook : Option Pool) : Orderly hl (kalloc hook) hl := by
  apply holding_orderly (l := .kmem) h
  cases hook with
  | none => exact .nil
  | some i => exact addRandomEvent_orderly (OpenFrom.cons (l := .kmem) h (by decide)) i

theorem kfree_orderly (h : OpenFrom 2 hl) (hook : Option Pool) : Orderly hl (kfree hook) hl :=
  kalloc_orderly h hook

theorem sha256_orderly (h : OpenFrom 0 hl) (hook : Option Pool) : Orderly hl (sha256 hook) hl :=
  (kalloc_orderly (h.mono (by decide)) hook).append (cprintf_orderly h)

theorem sleep_orderly (hr : rank l = 0) : Orderly [l] (sleep l) [l] := by
  have hl : l ≠ .ptable := by
    rintro rfl
    exact absurd hr (by decide)
  have hmay : May [l] .ptable := Or.inr fun k hk => by
    rw [List.mem_singleton.mp hk, hr]
    decide
  refine .acquire hmay (.release (by simp) ?_)
  rw [List.erase_cons_tail (by simpa using hl.symm), List.erase_cons_head]
  refine .park (.release List.mem_cons_self ?_)
  rw [List.erase_cons_head]
  exact .acquire (openFrom_nil.may) .nil

theorem yield_orderly : Orderly [] yield [] := holding_orderly openFrom_nil (.park .nil)

theorem blocking_orderly (steps : List Blocking) : Orderly [] (blocking steps) [] := by
  refine .flatMap (fun b => ?_) steps
  cases b with
  | wakeup => exact wakeup_orderly openFrom_nil
  | sleep => exact yield_orderly

theorem tickEvent_orderly (h : May hl .tickslock) (hpool : OpenFrom 3 (.tickslock :: hl))
    (i : Pool) : Orderly hl (tickEvent i) hl :=
  (addRandomEvent_orderly hpool i).holding h

end Order

theorem drainPool_orderly (i : Pool) (hook : Option Pool) : Orderly [] (drainPool i hook) [] :=
  holding_orderly openFrom_nil (sha256_orderly (Or.inl ⟨i, List.mem_singleton_self _⟩) hook)

theorem reseed_orderly (r : Option Reseed) : Orderly [] (reseed r) [] := by
  cases r with
  | none => exact .nil
  | some r =>
    refine ((kalloc_orderly openFrom_nil r.seed).append (.flatMap (fun i => ?_) _)).append ?_
    · exact drainPool_orderly i (r.pools i)
    · exact ((sha256_orderly openFrom_nil r.key).append (kfree_orderly openFrom_nil r.free)).append
        (holding_orderly openFrom_nil .nil)

theorem fileEvent_orderly (event : Option (Pool × Bool)) : Orderly [] (fileEvent event) [] := by
  cases event with
  | none => exact .nil
  | some e =>
    have hopen : OpenFrom 3 [.tickslock] := OpenFrom.cons openFrom_nil (by decide)
    have hevent := addRandomEvent_orderly hopen e.1
    refine holding_orderly openFrom_nil (.append ?_ hevent)
    split
    · exact hevent
    · exact .nil

theorem consoleread_orderly (sleeps : ℕ) : Orderly [] (consoleread sleeps) [] :=
  holding_orderly openFrom_nil ((sleep_orderly rfl).repeated sleeps)

theorem syscall_orderly (call : Syscall) : Orderly [] (syscall call) [] := by
  have hnil {r : ℕ} : OpenFrom r [] := openFrom_nil
  have hptable : OpenFrom 2 [.ptable] := OpenFrom.cons openFrom_nil (by decide)
  cases call with
  | random r pages =>
    refine ((cprintf_orderly hnil).repeated _).append ?_
    have hread : Orderly [] (holding .tickslock [] ++ holding (.pool 0) []) [] :=
      (holding_orderly hnil .nil).append (holding_orderly hnil .nil)
    exact (hread.append (reseed_orderly r)).append (.flatMap (kalloc_orderly hnil) pages)
  | read event target =>
    cases target with
    | console before after sleeps =>
      exact (((fileEvent_orderly event).append (blocking_orderly before)).append
        (consoleread_orderly sleeps)).append (blocking_orderly after)
    | other steps => exact (fileEvent_orderly event).append (blocking_orderly steps)
  | write event target =>
    cases target with
    | console before after _ =>
      exact (((fileEvent_orderly event).append (blocking_orderly before)).append
        (holding_orderly hnil .nil)).append (blocking_orderly after)
    | other steps => exact (fileEvent_orderly event).append (blocking_orderly steps)
  | sleep sleeps => exact holding_orderly hnil ((sleep_orderly rfl).repeated sleeps)
  | uptime => exact holding_orderly hnil .nil
  | fork pages => exact holding_orderly hnil (.flatMap (kalloc_orderly hptable) pages)
  | wait sleeps pages =>
    refine holding_orderly hnil (.append ?_ (.flatMap (kfree_orderly hptable) pages))
    exact LockOrder.Orderly.repeated (.park .nil) sleeps
  | kill => exact holding_orderly hnil .nil
  | other pages steps =>
    exact (LockOrder.Orderly.flatMap (kalloc_orderly hnil) pages).append (blocking_orderly steps)

theorem consoleintr_orderly (keys : List Key) (lines : ℕ) :
    Orderly [] (consoleintr keys lines) [] := by
  have hcons {r : ℕ} (hr : 0 < r) : OpenFrom r [.cons] := OpenFrom.cons openFrom_nil hr
  refine (holding_orderly openFrom_nil (.flatMap (fun k => ?_) keys)).append
    ((cprintf_orderly openFrom_nil).repeated lines)
  exact ((wakeup_orderly (hcons (by decide))).repeated _).append
    (addRandomEvent_orderly (hcons (by decide)) k.pool)

theorem trap_orderly (i : Pool) (t : Trap) : Orderly [] (trap i t) [] := by
  have htick (i : Pool) : Orderly [] (tickEvent i) [] :=
    tickEvent_orderly openFrom_nil.may (OpenFrom.cons openFrom_nil (by decide)) i
  refine (htick i).append ?_
  cases t with
  | syscall call => exact syscall_orderly call
  | timer first preempts =>
    have hclock : Orderly [] (if first then holding .tickslock wakeup else []) [] := by
      split
      · exact holding_orderly openFrom_nil
          (wakeup_orderly (OpenFrom.cons openFrom_nil (by decide)))
      · exact .nil
    apply hclock.append
    split
    · exact yield_orderly
    · exact .nil
  | ide wakes =>
    cases wakes with
    | true => exact wakeup_orderly openFrom_nil
    | false => exact .nil
  | kbd keys lines => exact consoleintr_orderly keys lines
  | com1 i keys lines => exact (htick i).append (consoleintr_orderly keys lines)
  | other => exact cprintf_orderly openFrom_nil

def AtRest (hl : List Lock) : Prop := hl = [] ∨ hl = [.ptable]

def InOrder (hl : List Lock) (path : Path) : Prop := ∃ hl', Orderly hl path hl' ∧ AtRest hl'

structure CpuSound (held : List Lock) (todo : Path) (waits : Option Lock) (panicked : Bool) :
    Prop where
  todo : panicked = false → InOrder held todo
  waits : ∀ l, waits = some l → ∀ k ∈ held, rank k < rank l

structure Sound (s : System n) : Prop where
  cpu : ∀ c, CpuSound (s.held c) (s.todo c) (s.waits c) (s.panicked c)
  saved : ∀ path ∈ s.saved, InOrder [.ptable] path

/-- An acquisition against the order finds its lock free, or held by the processor itself. -/
def Uncontended (s : System n) : Action n → Prop
  | .step c => ∀ l rest, s.todo c = .acquire l :: rest → AgainstOrder (s.held c) l →
      ∀ d, d ≠ c → l ∉ s.held d
  | _ => True

section Sound

variable {s : System n} {c : Fin n}

theorem Sound.change (h : Sound s) {held : List Lock} {todo : Path} {waits : Option Lock}
    {panicked : Bool} (hc : CpuSound held todo waits panicked) :
    Sound
      { s with
        held := Function.update s.held c held
        todo := Function.update s.todo c todo
        waits := Function.update s.waits c waits
        panicked := Function.update s.panicked c panicked } := by
  refine ⟨fun d => ?_, h.saved⟩
  by_cases hdc : d = c
  · subst hdc
    simpa using hc
  · simpa [Function.update_of_ne hdc] using h.cpu d

theorem Sound.run (h : Sound s) {path : Path} (hpath : InOrder (s.held c) path) :
    Sound (s.run c path) := by
  have hcpu : CpuSound (s.held c) path (s.waits c) (s.panicked c) :=
    ⟨fun _ => hpath, (h.cpu c).waits⟩
  simpa [System.run] using h.change (c := c) hcpu

theorem Sound.panic (h : Sound s) : Sound (s.panic c) := by
  have hcpu : CpuSound (s.held c) (s.todo c) (s.waits c) true :=
    ⟨fun hp => absurd hp (by decide), (h.cpu c).waits⟩
  simpa [System.panic] using h.change (c := c) hcpu

variable {rest : Path}

theorem Sound.acquire (h : Sound s) {l : Lock} (hpath : InOrder (s.held c) (.acquire l :: rest))
    (hfree : AgainstOrder (s.held c) l → ∀ d, d ≠ c → l ∉ s.held d) :
    Sound (s.stepOp c (.acquire l :: rest)) := by
  obtain ⟨hl', hord, hrest⟩ := hpath
  obtain ⟨hmay, hord⟩ := orderly_acquire.mp hord
  rw [System.stepOp]
  split_ifs with hown htaken
  · exact h.panic
  · -- the lock is taken by another, so this acquisition is in order
    have hwaits : ∀ k ∈ s.held c, rank k < rank l := by
      refine hmay.resolve_left fun hagainst => ?_
      obtain ⟨e, he⟩ := htaken
      exact hfree hagainst e (fun hec => hown (hec ▸ he)) he
    have hcpu : CpuSound (s.held c) (s.todo c) (some l) (s.panicked c) :=
      ⟨(h.cpu c).todo, fun k hk => Option.some.inj hk ▸ hwaits⟩
    simpa using h.change (c := c) hcpu
  · have hcpu : CpuSound (l :: s.held c) rest none (s.panicked c) :=
      ⟨fun _ => ⟨hl', hord, hrest⟩, fun k hk => absurd hk.symm (Option.some_ne_none k)⟩
    simpa [System.run] using h.change (c := c) hcpu

theorem Sound.release (h : Sound s) {l : Lock} (hpath : InOrder (s.held c) (.release l :: rest)) :
    Sound (s.stepOp c (.release l :: rest)) := by
  obtain ⟨hl', hord, hrest⟩ := hpath
  obtain ⟨hmem, hord⟩ := orderly_release.mp hord
  rw [System.stepOp, if_pos hmem]
  have hcpu : CpuSound ((s.held c).erase l) rest (s.waits c) (s.panicked c) :=
    ⟨fun _ => ⟨hl', hord, hrest⟩,
      fun k hk j hj => (h.cpu c).waits k hk j (List.mem_of_mem_erase hj)⟩
  simpa [System.run] using h.change (c := c) hcpu

theorem inOrder_nil {hl : List Lock} (h : AtRest hl) : InOrder hl [] := ⟨hl, .nil, h⟩

theorem Sound.park (h : Sound s) (hpath : InOrder (s.held c) (.park :: rest)) :
    Sound (s.stepOp c (.park :: rest)) := by
  obtain ⟨hl', hord, hrest⟩ := hpath
  obtain ⟨hheld, hord⟩ := orderly_park.mp hord
  rw [System.stepOp, if_pos hheld]
  have hrun : Sound (s.run c []) := h.run (inOrder_nil (Or.inr hheld))
  refine ⟨hrun.cpu, fun path hpath => ?_⟩
  cases List.mem_append.mp hpath with
  | inl hold => exact h.saved path hold
  | inr hnew => exact List.mem_singleton.mp hnew ▸ ⟨hl', hord, hrest⟩

theorem Sound.stepOp (h : Sound s) (hc : s.panicked c = false)
    (hfree : Uncontended s (.step c)) : Sound (s.stepOp c (s.todo c)) := by
  have hpath := (h.cpu c).todo hc
  cases htodo : s.todo c with
  | nil => exact h
  | cons op rest =>
    rw [htodo] at hpath
    cases op with
    | acquire l => exact h.acquire hpath fun hagainst => hfree l rest htodo hagainst
    | release l => exact h.release hpath
    | park => exact h.park hpath

theorem inOrder_pick (i : Pool) {path : Path} (h : InOrder [.ptable] path) :
    InOrder [.ptable] (tickEvent i ++ path) := by
  obtain ⟨hl', hord, hrest⟩ := h
  have hmay : May [.ptable] .tickslock := Or.inl (Or.inl ⟨rfl, List.mem_singleton_self _⟩)
  have hpool : OpenFrom 3 [.tickslock, .ptable] := Or.inr (by decide)
  exact ⟨hl', (tickEvent_orderly hmay hpool i).append hord, hrest⟩

theorem inOrder_release : InOrder [.ptable] [.release .ptable] := by
  refine ⟨[], .release (List.mem_singleton_self _) ?_, Or.inl rfl⟩
  rw [List.erase_cons_head]
  exact .nil

theorem Sound.step (h : Sound s) (a : Action n) (ha : Uncontended s a) : Sound (step s a) := by
  cases a with
  | step c =>
    rw [Locks.step]
    split_ifs with hc
    · exact h
    · exact h.stepOp (Bool.not_eq_true _ ▸ hc) ha
  | enter c i t =>
    rw [Locks.step]
    split_ifs with hc
    · obtain ⟨hl', hord, hrest⟩ := (h.cpu c).todo hc.1
      rw [hc.2.1] at hord
      exact h.run ⟨hl', hc.2.1 ▸ (trap_orderly i t).append hord, hrest⟩
    · exact h
  | scan c =>
    rw [Locks.step]
    split_ifs with hc
    · exact h.run (hc.2.1 ▸ ⟨[.ptable], .acquire openFrom_nil.may .nil, Or.inr rfl⟩)
    · exact h
  | pick c k i =>
    rw [Locks.step]
    split_ifs with hc
    · cases hk : s.saved[k]? with
      | none => exact h
      | some rest =>
        have hpath := inOrder_pick i (h.saved rest (List.mem_of_getElem? hk))
        have hrun := h.run (c := c) (hc.2.1 ▸ hpath)
        exact ⟨hrun.cpu, fun path hp => h.saved path (List.mem_of_mem_eraseIdx hp)⟩
    · exact h
  | scanned c =>
    rw [Locks.step]
    split_ifs with hc
    · exact h.run (hc.2.1 ▸ inOrder_release)
    · exact h

theorem sound_initial (k : ℕ) : Sound (System.initial n k) := by
  refine ⟨fun c => ⟨fun _ => inOrder_nil (Or.inl rfl), fun l hl => ?_⟩, fun path hpath => ?_⟩
  · cases hl
  · rw [List.eq_of_mem_replicate hpath]
    exact inOrder_release

end Sound

theorem always_not_deadlocked (k : ℕ) (acts : List (Action n))
    (h : Along step Uncontended (System.initial n k) acts) :
    Always step (fun s => ¬ s.Deadlocked) (System.initial n k) acts :=
  h.always (sound_initial k) (fun _ a hs ha => hs.step a ha)
    fun _ hs => not_deadlocked_of_rank rank fun c => (hs.cpu c).waits

theorem always_not_deadlocked_scheduler :
    Always step (fun s => ¬ s.Deadlocked) (System.initial 2 1)
      [.scan 1, .step 1, .pick 1 0 5, .step 1] := by
  have hother {s : System 2} (h : s.held 0 = []) : Uncontended s (.step 1) := by
    intro l rest _ _ d hd
    have hd0 : d = 0 := by omega
    rw [hd0, h]
    exact List.not_mem_nil
  exact always_not_deadlocked 1 _ ⟨trivial, hother rfl, trivial, hother rfl, trivial⟩

def nestings : List Lock → Path → List (Lock × Lock)
  | _, [] => []
  | hl, .acquire l :: rest => hl.map (fun k => (k, l)) ++ nestings (l :: hl) rest
  | hl, .release l :: rest => nestings (hl.erase l) rest
  | hl, .park :: rest => nestings hl rest

def HeldWhileAcquiring (k l : Lock) : Prop :=
  (∃ i t, (k, l) ∈ nestings [] (trap i t)) ∨ ∃ i, (k, l) ∈ nestings [.ptable] (tickEvent i)

/-- Processor 0 has `tickslock` and wants `ptable.lock` to wake the sleepers; the scheduler of
processor 1 has `ptable.lock` and wants `tickslock` to add an event. -/
theorem deadlocked_tick_scheduler :
    ¬ Always step (fun s => ¬ s.Deadlocked) (System.initial 2 1)
      [.enter 0 4 (.timer true true), .step 0, .step 0, .step 0, .step 0, .step 0,
        .scan 1, .step 1, .pick 1 0 5, .step 1, .step 0] ∧
    ¬ ∀ l, ¬ Relation.TransGen HeldWhileAcquiring l l := by
  constructor
  · intro h
    refine h _ (List.prefix_refl _) ⟨Finset.univ, Finset.univ_nonempty, fun c _ => ?_⟩
    match c with
    | 0 => exact ⟨by decide, .ptable, by decide, 1, by decide, by decide, by decide⟩
    | 1 => exact ⟨by decide, .tickslock, by decide, 0, by decide, by decide, by decide⟩
  · intro h
    have htick : HeldWhileAcquiring .tickslock .ptable := Or.inl ⟨4, .timer true true, by decide⟩
    have hscheduler : HeldWhileAcquiring .ptable .tickslock := Or.inr ⟨5, by decide⟩
    exact h .tickslock (.tail (.single htick) hscheduler)

end Xv6Prng.Locks
