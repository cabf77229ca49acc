import Xv6Prng.Library.ByteWords
import Xv6Prng.Library.Runs

/-!
# The life of a process

`fork`, `exit`, `wait` and `kill` of `proc.c` over the process table, with the scheduler and
the waits of other calls. What is done under `ptable.lock` is one step: the whole of `fork` and
of `kill`, the last part of `exit`, and a pass of the loop in `wait`. A process that has been
killed is made to exit by `trap` when it enters the kernel.

A kernel stack or a page table is named by a number that no allocation has had before, so that
`freed` shows what was freed twice. The ghost `hit` says that `kill` has found the process since
it was created; `killed` may also be left from a `kill` of the slot when it was free.
-/

namespace Xv6Prng.ProcLife

open Runs Function

inductive PState
  | unused
  | embryo
  | sleeping
  | runnable
  | running
  | zombie
  deriving DecidableEq

/-- `p->chan`: null, a process, or anything else. -/
inductive Chan (n : ℕ)
  | null
  | proc (p : Fin n)
  | other
  deriving DecidableEq

inductive Pc
  | user
  | wait
  | exit
  deriving DecidableEq

structure Proc (n : ℕ) where
  state : PState
  pid : Word
  parent : Option (Fin n)
  killed : Bool
  chan : Chan n
  kstack : Option ℕ
  pgdir : Option ℕ
  pc : Pc
  hit : Bool

structure Exit where
  life : ℕ
  pid : Word

structure Reap (n : ℕ) where
  life : ℕ
  pgdir : ℕ
  pid : Word
  parent : Option (Fin n)
  waiter : Fin n

structure Refusal (n : ℕ) where
  waiter : Fin n
  children : List (Fin n)
  hit : Bool

structure History (n : ℕ) where
  freed : List ℕ
  exits : List Exit
  reaps : List (Reap n)
  refusals : List (Refusal n)

structure System (n : ℕ) where
  procs : Fin n → Proc n
  nextpid : Word
  fresh : ℕ
  panic : Bool
  history : History n

def Proc.free (n : ℕ) : Proc n := ⟨.unused, 0, none, false, .null, none, none, .user, false⟩

def Proc.initcode (n : ℕ) : Proc n :=
  ⟨.runnable, 1, none, false, .null, some 0, some 1, .user, false⟩

def System.initial {n : ℕ} (init : Fin n) : System n where
  procs q := if q = init then .initcode n else .free n
  nextpid := 2
  fresh := 2
  panic := false
  history := ⟨[], [], [], []⟩

inductive Action (n : ℕ)
  | fork (p : Fin n) (kalloc copyuvm : Bool)
  | exit (p : Fin n)
  | exitSched (p : Fin n)
  | wait (p : Fin n)
  | waitScan (p : Fin n)
  | kill (p : Fin n) (pid : Word)
  | schedule (p : Fin n)
  | yield (p : Fin n)
  | sleep (p : Fin n)
  | wakeup (p : Fin n)

namespace System

variable {n : ℕ} (init : Fin n) (s : System n) (p : Fin n)

def set (x : Proc n) : System n := { s with procs := Function.update s.procs p x }

def wakeup1 (chan : Chan n) : System n :=
  { s with procs := fun q =>
      if (s.procs q).state = .sleeping ∧ (s.procs q).chan = chan then
        { s.procs q with state := .runnable }
      else s.procs q }

def kfree (l : List ℕ) : System n :=
  { s with history := { s.history with freed := s.history.freed ++ l } }

/-- `allocproc`; `kalloc` says whether there is a page for the stack. -/
def allocproc (kalloc : Bool) : Option (Fin n) × System n :=
  match (List.finRange n).find? fun q => (s.procs q).state = .unused with
  | none => (none, s)
  | some np =>
    let x := { s.procs np with pid := s.nextpid, pc := .user, hit := false }
    if kalloc then
      (some np, { s.set np { x with state := .embryo, kstack := some s.fresh } with
        nextpid := s.nextpid + 1, fresh := s.fresh + 1 })
    else
      (none, { s.set np { x with state := .unused, kstack := none } with
        nextpid := s.nextpid + 1 })

def fork (kalloc copyuvm : Bool) : System n :=
  match s.allocproc kalloc with
  | (none, s) => s
  | (some np, s) =>
    let x := s.procs np
    if copyuvm then
      { s.set np { x with
          state := .runnable, parent := some p, pgdir := some s.fresh } with
        fresh := s.fresh + 1 }
    else (s.kfree x.kstack.toList).set np { x with state := .unused, kstack := none, pgdir := none }

def enterExit : System n :=
  if p = init then { s with panic := true } else s.set p { s.procs p with pc := .exit }

def reparent : System n :=
  { s with procs := fun q =>
      if (s.procs q).parent = some p then { s.procs q with parent := some init } else s.procs q }

def hasZombie : Bool :=
  (List.finRange n).any fun q => (s.procs q).parent = some p ∧ (s.procs q).state = .zombie

def passChildren : System n :=
  if s.hasZombie p then (s.reparent init p).wakeup1 (.proc init) else s.reparent init p

def becomeZombie : System n :=
  { s.set p { s.procs p with state := .zombie } with
    history := { s.history with
      exits := s.history.exits ++ [⟨(s.procs p).kstack.getD 0, (s.procs p).pid⟩] } }

def chanOf : Option (Fin n) → Chan n
  | some q => .proc q
  | none => .null

def exitSched : System n :=
  ((s.wakeup1 (chanOf (s.procs p).parent)).passChildren init p).becomeZombie p

def children : List (Fin n) := (List.finRange n).filter fun q => (s.procs q).parent = some p

def reap (c : Fin n) : System n :=
  let x := s.procs c
  let s' := (s.kfree (x.kstack.toList ++ x.pgdir.toList)).set c
    { x with state := .unused, pid := 0, parent := none, killed := false, kstack := none }
  { s' with history := { s'.history with reaps := s'.history.reaps ++
      [⟨x.kstack.getD 0, x.pgdir.getD 0, x.pid, x.parent, p⟩] } }

def waitScan : System n :=
  match (List.finRange n).find? fun c =>
      (s.procs c).parent = some p ∧ (s.procs c).state = .zombie with
  | some c =>
    let s' := s.reap p c
    s'.set p { s'.procs p with pc := .user }
  | none =>
    if s.children p = [] ∨ (s.procs p).killed then
      { s.set p { s.procs p with pc := .user } with
        history := { s.history with refusals := s.history.refusals ++
          [⟨p, s.children p, (s.procs p).hit⟩] } }
    else s.set p { s.procs p with state := .sleeping, chan := .proc p }

def kill (pid : Word) : System n :=
  match (List.finRange n).find? fun q => (s.procs q).pid = pid with
  | none => s
  | some q =>
    let x := { s.procs q with killed := true, hit := true }
    s.set q (if x.state = .sleeping then { x with state := .runnable } else x)

def syscall (call : System n) : System n :=
  if (s.procs p).state = .running ∧ (s.procs p).pc = .user then
    if (s.procs p).killed then s.enterExit init p else call
  else s

def act : Action n → System n
  | .fork p kalloc copyuvm => s.syscall init p (s.fork p kalloc copyuvm)
  | .exit p =>
    if (s.procs p).state = .running ∧ (s.procs p).pc = .user then s.enterExit init p else s
  | .exitSched p =>
    if (s.procs p).state = .running ∧ (s.procs p).pc = .exit then s.exitSched init p else s
  | .wait p => s.syscall init p (s.set p { s.procs p with pc := .wait })
  | .waitScan p =>
    if (s.procs p).state = .running ∧ (s.procs p).pc = .wait then s.waitScan p else s
  | .kill p pid => s.syscall init p (s.kill pid)
  | .schedule p =>
    if (s.procs p).state = .runnable then s.set p { s.procs p with state := .running } else s
  | .yield p =>
    if (s.procs p).state = .running then s.set p { s.procs p with state := .runnable } else s
  | .sleep p =>
    if (s.procs p).state = .running ∧ (s.procs p).pc ≠ .wait then
      s.set p { s.procs p with state := .sleeping, chan := .other }
    else s
  | .wakeup p =>
    if (s.procs p).state = .sleeping ∧ (s.procs p).chan = .other then
      s.set p { s.procs p with state := .runnable }
    else s

end System

def step {n : ℕ} (init : Fin n) (s : System n) (a : Action n) : System n :=
  if s.panic then s else s.act init a

section Life

variable {n : ℕ} {init p : Fin n} {s : System n}

def Proc.Alive (x : Proc n) : Prop := x.state ≠ .unused ∧ x.state ≠ .zombie

/-- An exited process is a zombie that nobody has taken, or one `wait` of its parent has
returned its pid and freed what it had. -/
def System.Accounted (s : System n) (e : Exit) : Prop :=
  (∃ p, (s.procs p).state = .zombie ∧ (s.procs p).kstack = some e.life ∧ (s.procs p).pid = e.pid ∧
    e.life ∉ s.history.freed ∧ e.life ∉ s.history.reaps.map Reap.life) ∨
  ∃ r, (s.history.reaps.filter fun r => r.life = e.life) = [r] ∧ r.pid = e.pid ∧
    r.parent = some r.waiter ∧ s.history.freed.count e.life = 1 ∧ s.history.freed.count r.pgdir = 1

structure LifeCycle (init : Fin n) (s : System n) : Prop where
  parent : ∀ p ≠ init, (s.procs p).state ≠ .unused →
    ∃ q, (s.procs p).parent = some q ∧ (s.procs q).Alive
  exits : ∀ e ∈ s.history.exits, s.Accounted e
  once : s.history.freed.Nodup
  refusals : ∀ w ∈ s.history.refusals, w.children = [] ∨ w.hit = true

def Proc.pages (x : Proc n) : List ℕ :=
  if x.state = .unused then [] else x.kstack.toList ++ x.pgdir.toList

structure Sound (init : Fin n) (s : System n) : Prop where
  init_alive : (s.procs init).Alive
  parents : ∀ p ≠ init, (s.procs p).state ≠ .unused →
    ∃ q, (s.procs p).parent = some q ∧ (s.procs q).Alive
  orphan : ∀ p, (s.procs p).state = .unused → (s.procs p).parent = none
  held : ∀ p, (s.procs p).state ≠ .unused →
    ∃ k d, (s.procs p).kstack = some k ∧ (s.procs p).pgdir = some d
  pages : ∀ id, s.history.freed.count id + ∑ p, (s.procs p).pages.count id =
    if id < s.fresh then 1 else 0
  exited : ∀ e ∈ s.history.exits,
    (∃ p, (s.procs p).state = .zombie ∧ (s.procs p).kstack = some e.life ∧
      (s.procs p).pid = e.pid) ∨
    ∃ r ∈ s.history.reaps, r.life = e.life ∧ r.pid = e.pid
  reaps : ∀ r ∈ s.history.reaps, r.parent = some r.waiter ∧ r.life ∈ s.history.freed ∧
    r.pgdir ∈ s.history.freed
  reaps_nodup : (s.history.reaps.map Reap.life).Nodup
  refusals : ∀ w ∈ s.history.refusals, w.children = [] ∨ w.hit = true
  waiting : ∀ p, (s.procs p).pc = .wait → (s.procs p).killed = true → (s.procs p).hit = true
  exiting : ∀ p, (s.procs p).pc = .exit → p ≠ init

structure Soft (x y : Proc n) : Prop where
  pid : y.pid = x.pid
  parent : y.parent = x.parent
  kstack : y.kstack = x.kstack
  pgdir : y.pgdir = x.pgdir
  unused : y.state = .unused ↔ x.state = .unused
  zombie : y.state = .zombie ↔ x.state = .zombie

theorem Soft.refl (x : Proc n) : Soft x x := ⟨rfl, rfl, rfl, rfl, Iff.rfl, Iff.rfl⟩

variable {x : Proc n}

theorem Soft.alive {y : Proc n} (h : Soft x y) : y.Alive ↔ x.Alive := by
  simp only [Proc.Alive, ne_eq, h.unused, h.zombie]

theorem Soft.pages {y : Proc n} (h : Soft x y) : y.pages = x.pages := by
  simp only [Proc.pages, h.unused, h.kstack, h.pgdir]

theorem Sound.soft (h : Sound init s) {procs : Fin n → Proc n}
    (hsoft : ∀ p, Soft (s.procs p) (procs p))
    (hwait : ∀ p, (procs p).pc = .wait → (procs p).killed = true → (procs p).hit = true)
    (hexit : ∀ p, (procs p).pc = .exit → p ≠ init) : Sound init { s with procs := procs } where
  init_alive := (hsoft init).alive.mpr h.init_alive
  parents p hp hs := by
    obtain ⟨q, hq, halive⟩ := h.parents p hp fun hu => hs ((hsoft p).unused.mpr hu)
    exact ⟨q, (hsoft p).parent.trans hq, (hsoft q).alive.mpr halive⟩
  orphan p hs := (hsoft p).parent.trans (h.orphan p ((hsoft p).unused.mp hs))
  held p hs := by
    obtain ⟨k, d, hk, hd⟩ := h.held p fun hu => hs ((hsoft p).unused.mpr hu)
    exact ⟨k, d, (hsoft p).kstack.trans hk, (hsoft p).pgdir.trans hd⟩
  pages id := by
    simp only [fun p => (hsoft p).pages]
    exact h.pages id
  exited e he := by
    refine (h.exited e he).imp_left fun ⟨p, hz, hk, hpid⟩ => ⟨p, ?_, ?_, ?_⟩
    · exact (hsoft p).zombie.mpr hz
    · exact (hsoft p).kstack.trans hk
    · exact (hsoft p).pid.trans hpid
  __ := h
  waiting := hwait
  exiting := hexit

theorem Sound.set_soft (h : Sound init s) (hsoft : Soft (s.procs p) x)
    (hwait : x.pc = .wait → x.killed = true → x.hit = true) (hexit : x.pc = .exit → p ≠ init) :
    Sound init (s.set p x) := by
  apply h.soft
  · exact (forall_update_iff s.procs fun q y => Soft (s.procs q) y).mpr
      ⟨hsoft, fun q _ => .refl _⟩
  · exact (forall_update_iff s.procs fun _ y => y.pc = .wait → y.killed = true →
      y.hit = true).mpr ⟨hwait, fun q _ => h.waiting q⟩
  · exact (forall_update_iff s.procs fun q y => y.pc = .exit → q ≠ init).mpr
      ⟨hexit, fun q _ => h.exiting q⟩

theorem Sound.wakeup1 (h : Sound init s) (chan : Chan n) : Sound init (s.wakeup1 chan) := by
  apply h.soft
  · intro q
    split_ifs with hq
    · exact ⟨rfl, rfl, rfl, rfl, by simp [hq.1], by simp [hq.1]⟩
    · exact .refl _
  · intro q
    split_ifs <;> exact h.waiting q
  · intro q
    split_ifs <;> exact h.exiting q

theorem Sound.kill (h : Sound init s) (pid : Word) : Sound init (s.kill pid) := by
  unfold System.kill
  split
  · exact h
  · next q hq =>
    apply h.set_soft
    · by_cases hs : (s.procs q).state = .sleeping
      · simp only [hs, if_true]
        exact ⟨rfl, rfl, rfl, rfl, by simp [hs], by simp [hs]⟩
      · simp only [hs, if_false]
        exact ⟨rfl, rfl, rfl, rfl, Iff.rfl, Iff.rfl⟩
    · split_ifs <;> exact fun _ _ => rfl
    · split_ifs <;> exact h.exiting q

theorem Sound.enterExit (h : Sound init s) : Sound init (s.enterExit init p) := by
  unfold System.enterExit
  split_ifs with hp
  · exact ⟨h.init_alive, h.parents, h.orphan, h.held, h.pages, h.exited, h.reaps, h.reaps_nodup,
      h.refusals, h.waiting, h.exiting⟩
  · exact h.set_soft ⟨rfl, rfl, rfl, rfl, Iff.rfl, Iff.rfl⟩ (fun hw => Pc.noConfusion hw)
      fun _ => hp

structure Fills (s : System n) (x : Proc n) : Prop where
  state : x.state ≠ .zombie
  pc : x.pc = .user
  orphan : x.state = .unused → x.parent = none
  parent : x.state ≠ .unused → ∃ q, x.parent = some q ∧ (s.procs q).Alive
  held : x.state ≠ .unused → ∃ k d, x.kstack = some k ∧ x.pgdir = some d

theorem Sound.fill (h : Sound init s) (hp : (s.procs p).state = .unused) (hx : Fills s x)
    {s' : System n} {l : List ℕ} (hprocs : s'.procs = update s.procs p x)
    (hhist : s'.history = { s.history with freed := s.history.freed ++ l })
    (hpages : ∀ id, (if id < s.fresh then 1 else 0) + (l ++ x.pages).count id =
      if id < s'.fresh then 1 else 0) : Sound init s' := by
  obtain ⟨procs, nextpid, fresh, panic, history⟩ := s'
  subst hprocs hhist
  have hother : ∀ q, (s.procs q).state ≠ .unused → update s.procs p x q = s.procs q := by
    intro q hq
    apply update_of_ne
    rintro rfl
    exact hq hp
  have halive : ∀ q, (s.procs q).Alive → (update s.procs p x q).Alive := by
    intro q hq
    rw [hother q hq.1]
    exact hq
  constructor
  · exact halive init h.init_alive
  · apply (forall_update_iff s.procs fun q y => q ≠ init → y.state ≠ .unused →
      ∃ r, y.parent = some r ∧ (update s.procs p x r).Alive).mpr
    constructor
    · intro _ hs
      exact (hx.parent hs).imp fun r hr => hr.imp_right (halive r)
    · intro q _ hq hs
      exact (h.parents q hq hs).imp fun r hr => hr.imp_right (halive r)
  · exact (forall_update_iff s.procs fun _ y => y.state = .unused → y.parent = none).mpr
      ⟨hx.orphan, fun q _ => h.orphan q⟩
  · exact (forall_update_iff s.procs fun _ y => y.state ≠ .unused →
      ∃ k d, y.kstack = some k ∧ y.pgdir = some d).mpr ⟨hx.held, fun q _ => h.held q⟩
  · intro id
    have hsum := sum_update (fun y : Proc n => y.pages.count id) s.procs p x
    have hold : (s.procs p).pages = [] := by simp [Proc.pages, hp]
    have hnew := hpages id
    have hbefore := h.pages id
    simp only [hold, List.count_nil, List.count_append] at hsum hnew ⊢
    omega
  · intro e he
    refine (h.exited e he).imp_left fun ⟨q, hz, hrest⟩ => ⟨q, ?_⟩
    simp only [hother q (by simp [hz])]
    exact ⟨hz, hrest⟩
  · intro r hr
    obtain ⟨hparent, hlife, hpgdir⟩ := h.reaps r hr
    exact ⟨hparent, List.mem_append_left l hlife, List.mem_append_left l hpgdir⟩
  · exact h.reaps_nodup
  · exact h.refusals
  · exact (forall_update_iff s.procs fun _ y => y.pc = .wait → y.killed = true →
      y.hit = true).mpr ⟨fun hw => by simp [hx.pc] at hw, fun q _ => h.waiting q⟩
  · exact (forall_update_iff s.procs fun q y => y.pc = .exit → q ≠ init).mpr
      ⟨fun hw => by simp [hx.pc] at hw, fun q _ => h.exiting q⟩

theorem find_unused {np : Fin n}
    (h : (List.finRange n).find? (fun q => (s.procs q).state = .unused) = some np) :
    (s.procs np).state = .unused := by
  simpa using List.find?_some h

def System.forked (s : System n) (p np : Fin n) : Proc n :=
  { s.procs np with
    state := .runnable, pid := s.nextpid, parent := some p, kstack := some s.fresh,
    pgdir := some (s.fresh + 1), pc := .user, hit := false }

def System.unforked (s : System n) (np : Fin n) (pgdir : Option ℕ) : Proc n :=
  { s.procs np with
    state := .unused, pid := s.nextpid, kstack := none, pgdir := pgdir, pc := .user, hit := false }

theorem fork_eq {np : Fin n}
    (h : (List.finRange n).find? (fun q => (s.procs q).state = .unused) = some np)
    (kalloc copyuvm : Bool) : s.fork p kalloc copyuvm =
      { s with
        nextpid := s.nextpid + 1
        procs := update s.procs np
          (if kalloc then if copyuvm then s.forked p np else s.unforked np none
            else s.unforked np (s.procs np).pgdir)
        fresh := s.fresh + if kalloc then if copyuvm then 2 else 1 else 0
        history := { s.history with
          freed := s.history.freed ++ if kalloc && !copyuvm then [s.fresh] else [] } } := by
  cases kalloc <;> cases copyuvm <;>
    simp [System.fork, System.allocproc, h, System.set, System.kfree, System.forked,
      System.unforked, update_idem]

theorem Sound.fork (h : Sound init s) (hp : (s.procs p).Alive) (kalloc copyuvm : Bool) :
    Sound init (s.fork p kalloc copyuvm) := by
  cases hfind : (List.finRange n).find? fun q => (s.procs q).state = .unused with
  | none =>
    have hsame : s.fork p kalloc copyuvm = s := by simp [System.fork, System.allocproc, hfind]
    rw [hsame]
    exact h
  | some np =>
    have hnp := find_unused hfind
    have hnone : ∀ pgdir, Fills s (s.unforked np pgdir) := fun pgdir =>
      ⟨by simp [System.unforked], rfl, fun _ => h.orphan np hnp, fun hs => absurd rfl hs,
        fun hs => absurd rfl hs⟩
    rw [fork_eq hfind]
    cases kalloc with
    | false =>
      refine h.fill hnp (hnone (s.procs np).pgdir) rfl rfl fun id => ?_
      simp [Proc.pages, System.unforked]
    | true =>
      cases copyuvm with
      | false =>
        refine h.fill hnp (hnone none) rfl rfl fun id => ?_
        simp only [Proc.pages, System.unforked]
        grind
      | true =>
        refine h.fill hnp (x := s.forked p np) ⟨by simp [System.forked], rfl, ?_, ?_, ?_⟩ rfl rfl
          fun id => ?_
        · exact fun hs => PState.noConfusion hs
        · exact fun _ => ⟨p, rfl, hp⟩
        · exact fun _ => ⟨_, _, rfl, rfl⟩
        · simp only [Proc.pages, System.forked]
          grind

theorem Sound.reparent (h : Sound init s) (p : Fin n) : Sound init (s.reparent init p) := by
  have hsoft : ∀ q, (s.reparent init p).procs q = { s.procs q with
      parent := if (s.procs q).parent = some p then some init else (s.procs q).parent } := by
    intro q
    simp only [System.reparent]
    split_ifs <;> rfl
  constructor
  · simp only [hsoft]
    exact h.init_alive
  · intro q hq hs
    simp only [hsoft] at hs ⊢
    split_ifs with hparent
    · exact ⟨init, rfl, h.init_alive⟩
    · exact h.parents q hq hs
  · intro q hs
    simp only [hsoft] at hs ⊢
    rw [h.orphan q hs]
    simp
  · simp only [hsoft]
    exact h.held
  · simp only [hsoft]
    exact h.pages
  · simp only [hsoft]
    exact h.exited
  · exact h.reaps
  · exact h.reaps_nodup
  · exact h.refusals
  · simp only [hsoft]
    exact h.waiting
  · simp only [hsoft]
    exact h.exiting

theorem Sound.becomeZombie (h : Sound init s) (hp : (s.procs p).Alive) (hne : p ≠ init)
    (hkids : ∀ q, (s.procs q).parent ≠ some p) : Sound init (s.becomeZombie p) := by
  have halive : ∀ q ≠ p, (s.procs q).Alive →
      (update s.procs p { s.procs p with state := .zombie } q).Alive := by
    intro q hq hs
    rw [update_of_ne hq]
    exact hs
  constructor
  · exact halive init hne.symm h.init_alive
  · have hparent : ∀ q ≠ init, (s.procs q).state ≠ .unused → ∃ r, (s.procs q).parent = some r ∧
        (update s.procs p { s.procs p with state := .zombie } r).Alive := by
      intro q hq hs
      obtain ⟨r, hr, hralive⟩ := h.parents q hq hs
      exact ⟨r, hr, halive r (fun hrp => hkids q (hrp ▸ hr)) hralive⟩
    exact (forall_update_iff s.procs fun q y => q ≠ init → y.state ≠ .unused →
      ∃ r, y.parent = some r ∧ (update s.procs p _ r).Alive).mpr
      ⟨fun _ _ => hparent p hne hp.1, fun q _ => hparent q⟩
  · exact (forall_update_iff s.procs fun _ y => y.state = .unused → y.parent = none).mpr
      ⟨fun hs => PState.noConfusion hs, fun q _ => h.orphan q⟩
  · exact (forall_update_iff s.procs fun _ y => y.state ≠ .unused →
      ∃ k d, y.kstack = some k ∧ y.pgdir = some d).mpr
      ⟨fun _ => h.held p hp.1, fun q _ => h.held q⟩
  · intro id
    have hsum := sum_update (fun y : Proc n => y.pages.count id) s.procs p
      { s.procs p with state := .zombie }
    have hsame : Proc.pages { s.procs p with state := .zombie } = (s.procs p).pages := by
      simp [Proc.pages, hp.1]
    simp only [hsame] at hsum
    refine Eq.trans ?_ (h.pages id)
    simp only [System.becomeZombie, System.set]
    omega
  · intro e he
    obtain he | he := List.mem_append.mp he
    · refine (h.exited e he).imp_left fun ⟨q, hz, hrest⟩ => ⟨q, ?_⟩
      have hq : q ≠ p := by
        rintro rfl
        exact hp.2 hz
      simp only [System.becomeZombie, System.set, update_of_ne hq]
      exact ⟨hz, hrest⟩
    · obtain ⟨k, d, hk, hd⟩ := h.held p hp.1
      rw [List.mem_singleton.mp he]
      exact .inl ⟨p, by simp [System.becomeZombie, System.set, hk]⟩
  · exact h.reaps
  · exact h.reaps_nodup
  · exact h.refusals
  · exact (forall_update_iff s.procs fun _ y => y.pc = .wait → y.killed = true →
      y.hit = true).mpr ⟨h.waiting p, fun q _ => h.waiting q⟩
  · exact (forall_update_iff s.procs fun q y => y.pc = .exit → q ≠ init).mpr
      ⟨fun _ => hne, fun q _ => h.exiting q⟩

theorem wakeup1_parent (chan : Chan n) (q : Fin n) :
    ((s.wakeup1 chan).procs q).parent = (s.procs q).parent := by
  simp only [System.wakeup1]
  split_ifs <;> rfl

theorem wakeup1_alive (chan : Chan n) (q : Fin n) (hq : (s.procs q).Alive) :
    ((s.wakeup1 chan).procs q).Alive := by
  simp only [System.wakeup1]
  split_ifs
  · exact ⟨by simp, by simp⟩
  · exact hq

theorem reparent_parent (hp : p ≠ init) (q : Fin n) :
    ((s.reparent init p).procs q).parent ≠ some p := by
  simp only [System.reparent]
  split_ifs with hq
  · simpa using hp.symm
  · exact hq

theorem reparent_alive (init p q : Fin n) (hq : (s.procs q).Alive) :
    ((s.reparent init p).procs q).Alive := by
  simp only [System.reparent]
  split_ifs <;> exact hq

section Sound

variable (h : Sound init s)
include h

theorem Sound.exitSched (hp : (s.procs p).Alive) (hne : p ≠ init) :
    Sound init (s.exitSched init p) := by
  have h₁ := h.wakeup1 (System.chanOf (s.procs p).parent)
  have halive := reparent_alive init p p
    (wakeup1_alive (System.chanOf (s.procs p).parent) p hp)
  have hkids := reparent_parent (s := s.wakeup1 (System.chanOf (s.procs p).parent)) hne
  unfold System.exitSched System.passChildren
  split_ifs
  · refine ((h₁.reparent p).wakeup1 (.proc init)).becomeZombie (wakeup1_alive _ p halive) hne
      fun q => ?_
    rw [wakeup1_parent]
    exact hkids q
  · exact (h₁.reparent p).becomeZombie halive hne hkids

theorem Sound.not_freed {c : Fin n} {id : ℕ} (hid : id ∈ (s.procs c).pages) :
    s.history.freed.count id = 0 := by
  have hheld := List.one_le_count_iff.mpr hid
  have hsum := le_sum (fun y : Proc n => y.pages.count id) s.procs c
  have htotal := h.pages id
  split_ifs at htotal <;> omega

theorem Sound.reap {c : Fin n} (hparent : (s.procs c).parent = some p)
    (hz : (s.procs c).state = .zombie) : Sound init (s.reap p c) := by
  obtain ⟨k, d, hk, hd⟩ := h.held c (by simp [hz])
  have hpages : (s.procs c).pages = [k, d] := by simp [Proc.pages, hz, hk, hd]
  have hnew : ∀ id ∈ [k, d], s.history.freed.count id = 0 := fun id hid =>
    h.not_freed (hpages ▸ hid)
  have halive : ∀ q, (s.procs q).Alive → ((s.reap p c).procs q) = s.procs q := by
    intro q hq
    apply update_of_ne
    rintro rfl
    exact hq.2 hz
  have hfreed : (s.reap p c).history.freed = s.history.freed ++ [k, d] := by
    simp [System.reap, System.set, System.kfree, hk, hd]
  have hreaps : (s.reap p c).history.reaps =
      s.history.reaps ++ [⟨k, d, (s.procs c).pid, some p, p⟩] := by
    simp [System.reap, System.set, System.kfree, hk, hd, hparent]
  constructor
  · rw [halive init h.init_alive]
    exact h.init_alive
  · apply (forall_update_iff s.procs fun q y => q ≠ init → y.state ≠ .unused →
      ∃ r, y.parent = some r ∧ ((s.reap p c).procs r).Alive).mpr
    refine ⟨fun _ hs => absurd rfl hs, fun q _ hq hs => ?_⟩
    obtain ⟨r, hr, hralive⟩ := h.parents q hq hs
    refine ⟨r, hr, ?_⟩
    rw [halive r hralive]
    exact hralive
  · exact (forall_update_iff s.procs fun _ y => y.state = .unused → y.parent = none).mpr
      ⟨fun _ => rfl, fun q _ => h.orphan q⟩
  · exact (forall_update_iff s.procs fun _ y => y.state ≠ .unused →
      ∃ k d, y.kstack = some k ∧ y.pgdir = some d).mpr
      ⟨fun hs => absurd rfl hs, fun q _ => h.held q⟩
  · intro id
    have hsum := sum_update (fun y : Proc n => y.pages.count id) s.procs c
      ((s.reap p c).procs c)
    have hnone : ((s.reap p c).procs c).pages = [] := by
      simp [System.reap, System.set, System.kfree, Proc.pages]
    have hprocs : (s.reap p c).procs = update s.procs c ((s.reap p c).procs c) := by
      simp [System.reap, System.set, System.kfree]
    simp only [hnone, hpages, List.count_nil] at hsum
    refine Eq.trans ?_ (h.pages id)
    rw [hfreed, hprocs, List.count_append]
    omega
  · intro e he
    rw [hreaps]
    obtain ⟨q, hq, hlife, hpid⟩ | ⟨r, hr, hrest⟩ := h.exited e he
    · by_cases hqc : q = c
      · subst hqc
        have hek : k = e.life := Option.some.inj (hk.symm.trans hlife)
        exact .inr ⟨_, List.mem_append_right _ (List.mem_singleton.mpr rfl), hek, hpid⟩
      · refine .inl ⟨q, ?_⟩
        have hsame : (s.reap p c).procs q = s.procs q := update_of_ne hqc ..
        rw [hsame]
        exact ⟨hq, hlife, hpid⟩
    · exact .inr ⟨r, List.mem_append_left _ hr, hrest⟩
  · intro r hr
    rw [hfreed]
    rw [hreaps] at hr
    obtain hr | hr := List.mem_append.mp hr
    · obtain ⟨hwaiter, hlife, hpgdir⟩ := h.reaps r hr
      exact ⟨hwaiter, List.mem_append_left _ hlife, List.mem_append_left _ hpgdir⟩
    · rw [List.mem_singleton.mp hr]
      exact ⟨rfl, by simp, by simp⟩
  · rw [hreaps, List.map_append]
    refine h.reaps_nodup.append (List.nodup_singleton k) ?_
    -- an earlier reap of the same life would have freed the stack
    intro id hid hidk
    obtain ⟨r, hr, rfl⟩ := List.mem_map.mp hid
    have hzero := hnew r.life (by rw [List.mem_singleton.mp hidk]; simp)
    exact List.count_eq_zero.mp hzero (h.reaps r hr).2.1
  · exact h.refusals
  · exact (forall_update_iff s.procs fun _ y => y.pc = .wait → y.killed = true →
      y.hit = true).mpr ⟨fun _ hkilled => Bool.noConfusion hkilled, fun q _ => h.waiting q⟩
  · exact (forall_update_iff s.procs fun q y => y.pc = .exit → q ≠ init).mpr
      ⟨h.exiting c, fun q _ => h.exiting q⟩

theorem Sound.waitScan (hpc : (s.procs p).pc = .wait)
    (hp : (s.procs p).Alive) : Sound init (s.waitScan p) := by
  unfold System.waitScan
  split
  · next c hc =>
    obtain ⟨hparent, hz⟩ : (s.procs c).parent = some p ∧ (s.procs c).state = .zombie := by
      simpa using List.find?_some hc
    exact (h.reap hparent hz).set_soft ⟨rfl, rfl, rfl, rfl, Iff.rfl, Iff.rfl⟩
      (fun hw => Pc.noConfusion hw) fun hw => Pc.noConfusion hw
  · have hsleep : Soft (s.procs p) { s.procs p with state := .sleeping, chan := .proc p } :=
      ⟨rfl, rfl, rfl, rfl, by simp [hp.1], by simp [hp.2]⟩
    split_ifs with hleave
    · have hback : Sound init (s.set p { s.procs p with pc := .user }) :=
        h.set_soft ⟨rfl, rfl, rfl, rfl, Iff.rfl, Iff.rfl⟩ (fun hw => Pc.noConfusion hw)
          fun hw => Pc.noConfusion hw
      refine ⟨hback.init_alive, hback.parents, hback.orphan, hback.held, hback.pages,
        hback.exited, hback.reaps, hback.reaps_nodup, fun w hw => ?_, hback.waiting,
        hback.exiting⟩
      obtain hw | hw := List.mem_append.mp hw
      · exact h.refusals w hw
      · rw [List.mem_singleton.mp hw]
        exact hleave.imp_right (h.waiting p hpc)
    · exact h.set_soft hsleep (h.waiting p) (h.exiting p)

theorem Sound.syscall {call : System n}
    (hcall : (s.procs p).Alive → (s.procs p).killed = false → Sound init call) :
    Sound init (s.syscall init p call) := by
  unfold System.syscall
  split_ifs with hrun hkilled
  · exact h.enterExit
  · exact hcall ⟨by simp [hrun.1], by simp [hrun.1]⟩ (Bool.eq_false_of_not_eq_true hkilled)
  · exact h

theorem Sound.set_state (hp : (s.procs p).Alive) (hx : x.Alive) {chan : Chan n}
    (heq : x = { s.procs p with state := x.state, chan := chan }) : Sound init (s.set p x) := by
  rw [heq]
  exact h.set_soft ⟨rfl, rfl, rfl, rfl, by simp [hp.1, hx.1], by simp [hp.2, hx.2]⟩ (h.waiting p)
    (h.exiting p)

theorem Sound.act (a : Action n) : Sound init (s.act init a) := by
  have halive : ∀ p, (s.procs p).state = .running → (s.procs p).Alive := fun p hp =>
    ⟨by simp [hp], by simp [hp]⟩
  cases a with
  | fork p kalloc copyuvm => exact h.syscall fun hp _ => h.fork hp kalloc copyuvm
  | exit p =>
    simp only [System.act]
    split_ifs
    · exact h.enterExit
    · exact h
  | exitSched p =>
    simp only [System.act]
    split_ifs with hp
    · exact h.exitSched (halive p hp.1) (h.exiting p hp.2)
    · exact h
  | wait p =>
    refine h.syscall fun hp hkilled => ?_
    exact h.set_soft ⟨rfl, rfl, rfl, rfl, Iff.rfl, Iff.rfl⟩ (fun _ hk => by simp [hkilled] at hk)
      fun hw => Pc.noConfusion hw
  | waitScan p =>
    simp only [System.act]
    split_ifs with hp
    · exact h.waitScan hp.2 (halive p hp.1)
    · exact h
  | kill p pid => exact h.syscall fun _ _ => h.kill pid
  | schedule p =>
    simp only [System.act]
    split_ifs with hp
    · exact h.set_state ⟨by simp [hp], by simp [hp]⟩ ⟨by simp, by simp⟩ rfl
    · exact h
  | yield p =>
    simp only [System.act]
    split_ifs with hp
    · exact h.set_state (halive p hp) ⟨by simp, by simp⟩ rfl
    · exact h
  | sleep p =>
    simp only [System.act]
    split_ifs with hp
    · exact h.set_state (halive p hp.1) ⟨by simp, by simp⟩ rfl
    · exact h
  | wakeup p =>
    simp only [System.act]
    split_ifs with hp
    · exact h.set_state ⟨by simp [hp.1], by simp [hp.1]⟩ ⟨by simp, by simp⟩ rfl
    · exact h

theorem Sound.step (a : Action n) : Sound init (step init s a) := by
  unfold ProcLife.step
  split_ifs
  · exact h
  · exact h.act a

end Sound

theorem forall_initial {P : Fin n → Proc n → Prop} (hinit : P init (.initcode n))
    (hfree : ∀ q ≠ init, P q (.free n)) (q : Fin n) : P q ((System.initial init).procs q) := by
  simp only [System.initial]
  split_ifs with hq
  · rw [hq]
    exact hinit
  · exact hfree q hq

theorem Sound.initial (init : Fin n) : Sound init (.initial init) := by
  constructor
  · exact forall_initial (P := fun q y => q = init → y.Alive)
      (fun _ => by simp [Proc.Alive, Proc.initcode])
      (fun q hq h => absurd h hq) init rfl
  · exact forall_initial (P := fun q y => q ≠ init → y.state ≠ .unused →
      ∃ r, y.parent = some r ∧ ((System.initial init).procs r).Alive) (fun h => absurd rfl h)
      fun q _ _ h => absurd rfl h
  · exact forall_initial (P := fun _ y => y.state = .unused → y.parent = none) (fun _ => rfl)
      fun _ _ _ => rfl
  · exact forall_initial (P := fun _ y => y.state ≠ .unused →
      ∃ k d, y.kstack = some k ∧ y.pgdir = some d) (fun _ => ⟨0, 1, rfl, rfl⟩)
      fun _ _ h => absurd rfl h
  · intro id
    rw [Finset.sum_eq_single init]
    · simp only [System.initial, if_true, Proc.pages, Proc.initcode]
      grind
    · intro q _ hq
      simp [System.initial, hq, Proc.pages, Proc.free]
    · simp
  · intro e he
    simp [System.initial] at he
  · intro r hr
    simp [System.initial] at hr
  · exact List.nodup_nil
  · intro w hw
    simp [System.initial] at hw
  · exact forall_initial (P := fun _ y => y.pc = .wait → y.killed = true → y.hit = true)
      (fun h => Pc.noConfusion h) fun _ _ h => Pc.noConfusion h
  · exact forall_initial (P := fun q y => y.pc = .exit → q ≠ init) (fun h => Pc.noConfusion h)
      fun _ _ h => Pc.noConfusion h

theorem Sound.count_freed (h : Sound init s) {id : ℕ} (hid : id ∈ s.history.freed) :
    s.history.freed.count id = 1 := by
  have hpos := List.one_le_count_iff.mpr hid
  have htotal := h.pages id
  split_ifs at htotal <;> omega

theorem Sound.filter_life (h : Sound init s) {r : Reap n} (hr : r ∈ s.history.reaps) :
    (s.history.reaps.filter fun r' => r'.life = r.life) = [r] := by
  have hnodup : s.history.reaps.Nodup := h.reaps_nodup.of_map
  apply List.perm_singleton.mp
  apply (List.perm_ext_iff_of_nodup (hnodup.filter _) (List.nodup_singleton r)).mpr
  intro r'
  rw [List.mem_filter, List.mem_singleton, decide_eq_true_iff]
  constructor
  · intro ⟨hr', hlife⟩
    exact List.inj_on_of_nodup_map h.reaps_nodup hr' hr hlife
  · rintro rfl
    exact ⟨hr, rfl⟩

theorem Sound.accounted (h : Sound init s) {e : Exit} (he : e ∈ s.history.exits) :
    s.Accounted e := by
  obtain ⟨p, hz, hlife, hpid⟩ | ⟨r, hr, hlife, hpid⟩ := h.exited e he
  · have hnot : e.life ∉ s.history.freed := by
      apply List.count_eq_zero.mp
      apply h.not_freed (c := p)
      simp [Proc.pages, hz, hlife]
    refine .inl ⟨p, hz, hlife, hpid, hnot, fun hmem => hnot ?_⟩
    obtain ⟨r, hr, hlife⟩ := List.mem_map.mp hmem
    rw [← hlife]
    exact (h.reaps r hr).2.1
  · obtain ⟨hwaiter, hfreed, hpgdir⟩ := h.reaps r hr
    rw [System.Accounted, ← hlife]
    exact .inr ⟨r, h.filter_life hr, hpid, hwaiter, h.count_freed hfreed, h.count_freed hpgdir⟩

theorem Sound.lifeCycle (h : Sound init s) : LifeCycle init s where
  parent := h.parents
  exits _ he := h.accounted he
  once := by
    apply List.nodup_iff_count_le_one.mpr
    intro id
    have htotal := h.pages id
    split_ifs at htotal <;> omega
  refusals := h.refusals

end Life

end Xv6Prng.ProcLife
