import Xv6Prng.Library.ByteWords
import Xv6Prng.Library.Runs

/-!
# Open files

The file table, the descriptors of every process and the ends of every pipe, under `open`,
`dup`, `pipe`, `fork`, `close` and `exit` (`file.c`, `pipe.c`, `sysfile.c`, `proc.c`). A step is
a section under `ftable.lock` or a pipe's lock, or one access to the process's own descriptors.
Every call may fail where the code lets it fail: there may be no file, no descriptor or no page.

A pipe is named by a number that no other pipe has had. `closes` lists the ends that
`pipeclose` has closed and `freed` the pages it has given back.
-/

namespace Xv6Prng.OpenFiles

open Runs Function

def NOFILE : ℕ := 16

def NFILE : ℕ := 100

inductive FdType
  | none
  | pipe
  | inode
  deriving DecidableEq

/-- What `fileclose` reads of a `struct file`. -/
structure File where
  ref : ℕ
  type : FdType
  pipe : ℕ
  writable : Bool

structure Pipe where
  readopen : Bool
  writeopen : Bool

def Pipe.shut (x : Pipe) (w : Bool) : Pipe :=
  if w then { x with writeopen := false } else { x with readopen := false }

/-- Where a process goes on after `fileclose`: back to its user, to the other file of a
failed `pipe`, or to the next descriptor in `exit`. -/
inductive Next
  | user
  | close (f : Fin NFILE)
  | exit (fd : Fin NOFILE)
  deriving DecidableEq

inductive Pc (n : ℕ)
  | unused
  | embryo
  | zombie
  | user
  | openFile (w : Bool)
  | openFd (f : Fin NFILE) (w : Bool)
  | openSet (f : Fin NFILE) (w : Bool)
  | dup (f : Fin NFILE) (src fd : Fin NOFILE)
  | pipe0
  | pipe1 (f0 : Fin NFILE)
  | pipePage (f0 f1 : Fin NFILE)
  | pipeFd0 (f0 f1 : Fin NFILE)
  | pipeFd1 (f0 f1 : Fin NFILE) (fd0 : Fin NOFILE)
  | close (f : Fin NFILE) (next : Next)
  | pipeclose (g : ℕ) (w : Bool) (next : Next)
  | kfree (g : ℕ) (next : Next)
  | exit (i : ℕ)
  | exitClear (fd : Fin NOFILE)
  | fork (c : Fin n) (i : ℕ)
  | forkGive (c : Fin n) (i : Fin NOFILE) (f : Fin NFILE)
  deriving DecidableEq

def Next.pc {n : ℕ} : Next → Pc n
  | .user => .user
  | .close f => .close f .user
  | .exit fd => .exitClear fd

structure Proc (n : ℕ) where
  ofile : Fin NOFILE → Option (Fin NFILE)
  pc : Pc n

structure System (n : ℕ) where
  files : Fin NFILE → File
  procs : Fin n → Proc n
  pipes : ℕ → Pipe
  fresh : ℕ
  closes : List (ℕ × Bool)
  freed : List ℕ
  panic : Bool

inductive Action (n : ℕ)
  | open (p : Fin n) (found w : Bool)
  | dup (p : Fin n) (fd : Word)
  | pipe (p : Fin n)
  | fork (p : Fin n) (memory : Bool)
  | close (p : Fin n) (fd : Word)
  | exit (p : Fin n)
  | wait (p : Fin n)
  | step (p : Fin n) (kalloc : Bool)

def System.initial {n : ℕ} (init : Fin n) : System n where
  files _ := ⟨0, .none, 0, false⟩
  procs p := ⟨fun _ => none, if p = init then .user else .unused⟩
  pipes _ := ⟨false, false⟩
  fresh := 0
  closes := []
  freed := []
  panic := false

def argfd {n : ℕ} (x : Proc n) (fd : Word) : Option (Fin NOFILE × Fin NFILE) :=
  if h : fd.toNat < NOFILE then (x.ofile ⟨fd.toNat, h⟩).map fun f => (⟨fd.toNat, h⟩, f) else none

def fdalloc {n : ℕ} (x : Proc n) : Option (Fin NOFILE) :=
  (List.finRange NOFILE).find? fun fd => x.ofile fd = none

def Proc.setFd {n : ℕ} (x : Proc n) (fd : Fin NOFILE) (v : Option (Fin NFILE)) (pc : Pc n) :
    Proc n :=
  ⟨Function.update x.ofile fd v, pc⟩

namespace System

variable {n : ℕ} (s : System n) (p : Fin n)

def set (x : Proc n) : System n := { s with procs := Function.update s.procs p x }

def goto (pc : Pc n) : System n := s.set p { s.procs p with pc := pc }

def setFile (f : Fin NFILE) (x : File) : System n :=
  { s with files := Function.update s.files f x }

def filealloc : Option (Fin NFILE) := (List.finRange NFILE).find? fun f => (s.files f).ref = 0

def filedup (f : Fin NFILE) (pc : Pc n) : System n :=
  if (s.files f).ref < 1 then { s with panic := true }
  else (s.setFile f { s.files f with ref := (s.files f).ref + 1 }).goto p pc

def fileclose (f : Fin NFILE) (next : Next) : System n :=
  let ff := s.files f
  if ff.ref < 1 then { s with panic := true }
  else if ff.ref - 1 > 0 then (s.setFile f { ff with ref := ff.ref - 1 }).goto p next.pc
  else (s.setFile f { ff with ref := 0, type := .none }).goto p
    (if ff.type = .pipe then .pipeclose ff.pipe ff.writable next else next.pc)

def pipeclose (g : ℕ) (w : Bool) (next : Next) : System n :=
  let x := (s.pipes g).shut w
  ({ s with
      pipes := Function.update s.pipes g x
      closes := s.closes ++ [(g, w)] }).goto p
    (if x.readopen = false ∧ x.writeopen = false then .kfree g next else next.pc)

def initPipe (f0 f1 : Fin NFILE) : System n :=
  let s₁ := s.setFile f0 { s.files f0 with type := .pipe, pipe := s.fresh, writable := false }
  { s₁.setFile f1 { s₁.files f1 with type := .pipe, pipe := s.fresh, writable := true } with
    pipes := Function.update s.pipes s.fresh ⟨true, true⟩
    fresh := s.fresh + 1 }

def step (kalloc : Bool) : System n :=
  let x := s.procs p
  match x.pc with
  | .unused | .embryo | .zombie | .user => s
  | .openFile w =>
    match s.filealloc with
    | none => s.goto p .user
    | some f => (s.setFile f { s.files f with ref := 1 }).goto p (.openFd f w)
  | .openFd f w =>
    match fdalloc x with
    | none => s.goto p (.close f .user)
    | some fd => s.set p (x.setFd fd (some f) (.openSet f w))
  | .openSet f w => (s.setFile f { s.files f with type := .inode, writable := w }).goto p .user
  | .dup f _ _ => s.filedup p f .user
  | .pipe0 =>
    match s.filealloc with
    | none => s.goto p .user
    | some f0 => (s.setFile f0 { s.files f0 with ref := 1 }).goto p (.pipe1 f0)
  | .pipe1 f0 =>
    match s.filealloc with
    | none => s.goto p (.close f0 .user)
    | some f1 => (s.setFile f1 { s.files f1 with ref := 1 }).goto p (.pipePage f0 f1)
  | .pipePage f0 f1 =>
    if kalloc then (s.initPipe f0 f1).goto p (.pipeFd0 f0 f1)
    else s.goto p (.close f0 (.close f1))
  | .pipeFd0 f0 f1 =>
    match fdalloc x with
    | none => s.goto p (.close f0 (.close f1))
    | some fd0 => s.set p (x.setFd fd0 (some f0) (.pipeFd1 f0 f1 fd0))
  | .pipeFd1 f0 f1 fd0 =>
    match fdalloc x with
    | none => s.set p (x.setFd fd0 none (.close f0 (.close f1)))
    | some fd1 => s.set p (x.setFd fd1 (some f1) .user)
  | .close f next => s.fileclose p f next
  | .pipeclose g w next => s.pipeclose p g w next
  | .kfree g next => { s.goto p next.pc with freed := s.freed ++ [g] }
  | .exit i =>
    if h : i < NOFILE then
      match x.ofile ⟨i, h⟩ with
      | none => s.goto p (.exit (i + 1))
      | some f => s.goto p (.close f (.exit ⟨i, h⟩))
    else s.goto p .zombie
  | .exitClear fd => s.set p (x.setFd fd none (.exit (fd.val + 1)))
  | .fork c i =>
    if h : i < NOFILE then
      match x.ofile ⟨i, h⟩ with
      | none => s.goto p (.fork c (i + 1))
      | some f => s.filedup p f (.forkGive c ⟨i, h⟩ f)
    else (s.goto c .user).goto p .user
  | .forkGive c i f =>
    (s.set c ((s.procs c).setFd i (some f) (s.procs c).pc)).goto p (.fork c (i.val + 1))

def enter : Action n → System n
  | .open p found w => if found then s.goto p (.openFile w) else s
  | .dup p fd =>
    match argfd (s.procs p) fd with
    | none => s
    | some (src, f) =>
      match fdalloc (s.procs p) with
      | none => s
      | some fd => s.set p ((s.procs p).setFd fd (some f) (.dup f src fd))
  | .pipe p => s.goto p .pipe0
  | .fork p memory =>
    match (List.finRange n).find? fun c => (s.procs c).pc = .unused with
    | none => s
    | some c => if memory then (s.goto c .embryo).goto p (.fork c 0) else s
  | .close p fd =>
    match argfd (s.procs p) fd with
    | none => s
    | some (fd, f) => s.set p ((s.procs p).setFd fd none (.close f .user))
  | .exit p => s.goto p (.exit 0)
  | .wait _ | .step _ _ => s

def caller : Action n → Fin n
  | .open p _ _ | .dup p _ | .pipe p | .fork p _ | .close p _ | .exit p | .wait p | .step p _ => p

def act (a : Action n) : System n :=
  if s.panic then s
  else
    match a with
    | .step p kalloc => s.step p kalloc
    | .wait p => if (s.procs p).pc = .zombie then s.goto p .unused else s
    | a => if (s.procs (caller a)).pc = .user then s.enter a else s

end System

variable {fd : Fin NOFILE}

section Accounting

variable {n : ℕ} {s : System n} {p : Fin n}

def Next.inHand : Next → List (Fin NFILE)
  | .close f => [f]
  | _ => []

def Next.skip : Next → Option (Fin NOFILE)
  | .exit fd => some fd
  | _ => none

def Pc.inHand : Pc n → List (Fin NFILE)
  | .openFd f _ => [f]
  | .pipe1 f0 => [f0]
  | .pipePage f0 f1 | .pipeFd0 f0 f1 => [f0, f1]
  | .pipeFd1 _ f1 _ => [f1]
  | .close f next => f :: next.inHand
  | .pipeclose _ _ next | .kfree _ next => next.inHand
  | .forkGive _ _ f => [f]
  | _ => []

/-- A descriptor whose reference is not counted yet, or no longer. -/
def Pc.skip : Pc n → Option (Fin NOFILE)
  | .dup _ _ fd => some fd
  | .close _ next | .pipeclose _ _ next | .kfree _ next => next.skip
  | .exitClear fd => some fd
  | _ => none

def Proc.counted (x : Proc n) : Fin NOFILE → Option (Fin NFILE) :=
  match x.pc.skip with
  | none => x.ofile
  | some fd => Function.update x.ofile fd none

@[irreducible] def pointing (o : Fin NOFILE → Option (Fin NFILE)) (f : Fin NFILE) : ℕ :=
  ∑ fd, if o fd = some f then 1 else 0

def Proc.held (x : Proc n) (f : Fin NFILE) : ℕ := pointing x.counted f + x.pc.inHand.count f

def Pc.closing (g : ℕ) (w : Bool) : Pc n → ℕ
  | .pipeclose g' w' _ => if g' = g ∧ w' = w then 1 else 0
  | _ => 0

def Pc.freeing (g : ℕ) : Pc n → ℕ
  | .kfree g' _ => if g' = g then 1 else 0
  | _ => 0

def File.isEnd (g : ℕ) (w : Bool) (x : File) : ℕ :=
  if x.type = .pipe ∧ x.pipe = g ∧ x.writable = w then 1 else 0

def bothClosed (closes : List (ℕ × Bool)) (g : ℕ) : Prop := (g, false) ∈ closes ∧ (g, true) ∈ closes

instance (closes : List (ℕ × Bool)) (g : ℕ) : Decidable (bothClosed closes g) :=
  inferInstanceAs (Decidable (_ ∧ _))

structure Accounted (s : System n) : Prop where
  ref : ∀ f, (s.files f).ref = ∑ p, (s.procs p).held f
  ref_slots : ∀ f, (∀ p, (s.procs p).pc.skip = none ∧ f ∉ (s.procs p).pc.inHand) →
    (s.files f).ref = ∑ p, pointing (s.procs p).ofile f
  type : ∀ f, (s.files f).ref = 0 → (s.files f).type = .none
  once : s.closes.Nodup
  closed : ∀ g < s.fresh, ∀ w, (g, w) ∈ s.closes ↔
    (∀ f, (s.files f).isEnd g w = 0) ∧ ∀ p, (s.procs p).pc.closing g w = 0
  freed_once : s.freed.Nodup
  freed : ∀ g, g ∈ s.freed ↔ bothClosed s.closes g ∧ ∀ p, (s.procs p).pc.freeing g = 0
  panic : s.panic = false

def Pc.child : Pc n → Option (Fin n × ℕ)
  | .fork c i => some (c, i)
  | .forkGive c i _ => some (c, i)
  | _ => none

/-- Files just allocated: nobody else has them and their type has not been set. -/
def Pc.raw : Pc n → List (Fin NFILE)
  | .openFd f _ | .openSet f _ => [f]
  | .pipe1 f0 => [f0]
  | .pipePage f0 f1 => [f0, f1]
  | _ => []

def Next.Local (o : Fin NOFILE → Option (Fin NFILE)) : Next → Prop
  | .exit fd => ∀ j < fd, o j = none
  | _ => True

def Proc.Local (x : Proc n) : Prop :=
  match x.pc with
  | .unused | .zombie => ∀ j, x.ofile j = none
  | .openSet f _ => ∃ fd, x.ofile fd = some f
  | .dup f src fd => src ≠ fd ∧ x.ofile src = some f ∧ x.ofile fd = some f
  | .pipeFd1 f0 _ fd0 => x.ofile fd0 = some f0
  | .close _ next | .pipeclose _ _ next | .kfree _ next => next.Local x.ofile
  | .exitClear fd => ∀ j < fd, x.ofile j = none
  | .exit i => ∀ j : Fin NOFILE, j.val < i → x.ofile j = none
  | .forkGive _ i f => x.ofile i = some f
  | _ => True

def Pipe.isOpen (x : Pipe) (w : Bool) : Bool := if w then x.writeopen else x.readopen

def System.Parents (s : System n) (c : Fin n) (y : Proc n) : Prop :=
  ∀ q i, (s.procs q).pc.child = some (c, i) →
    y.pc = .embryo ∧ ∀ j : Fin NOFILE, i ≤ j.val → y.ofile j = none

def System.Adopts (s : System n) (p : Fin n) (pc : Pc n) : Prop :=
  ∀ c i, pc.child = some (c, i) → c ≠ p ∧ (s.procs c).pc = .embryo ∧
    (∀ j : Fin NOFILE, i ≤ j.val → (s.procs c).ofile j = none) ∧
    ∀ q ≠ p, ∀ i', (s.procs q).pc.child ≠ some (c, i')

structure Sound (s : System n) : Prop where
  ref : ∀ f, (s.files f).ref = ∑ p, (s.procs p).held f
  type : ∀ f, (s.files f).ref = 0 → (s.files f).type = .none
  raw : ∀ p, ∀ f ∈ (s.procs p).pc.raw, (s.files f).type = .none ∧ (s.files f).ref = 1
  ends : ∀ g w, ∑ f, (s.files f).isEnd g w + ∑ p, (s.procs p).pc.closing g w +
    s.closes.count (g, w) = if g < s.fresh then 1 else 0
  opens : ∀ g < s.fresh, ∀ w, (s.pipes g).isOpen w = true ↔ (g, w) ∉ s.closes
  pages : ∀ g, s.freed.count g + ∑ p, (s.procs p).pc.freeing g =
    if bothClosed s.closes g then 1 else 0
  loc : ∀ p, (s.procs p).Local
  child : ∀ p c i, (s.procs p).pc.child = some (c, i) →
    (s.procs c).pc = .embryo ∧ ∀ j : Fin NOFILE, i ≤ j.val → (s.procs c).ofile j = none
  alone : ∀ p q, p ≠ q → ∀ c i j, (s.procs p).pc.child = some (c, i) →
    (s.procs q).pc.child ≠ some (c, j)
  panic : s.panic = false

theorem pointing_update (o : Fin NOFILE → Option (Fin NFILE)) (fd : Fin NOFILE)
    (v : Option (Fin NFILE)) (f : Fin NFILE) :
    pointing (update o fd v) f + (if o fd = some f then 1 else 0) =
      pointing o f + if v = some f then 1 else 0 := by
  unfold pointing
  exact sum_update (fun v => if v = some f then 1 else 0) o fd v

variable {f : Fin NFILE}

theorem pointing_pos {o : Fin NOFILE → Option (Fin NFILE)} (h : o fd = some f) :
    0 < pointing o f := by
  have hle := le_sum (fun v : Option (Fin NFILE) => if v = some f then 1 else 0) o fd
  simp only [h, if_true] at hle
  unfold pointing
  exact hle

theorem held_pos_of_raw {x : Proc n} (h : x.Local) (hf : f ∈ x.pc.raw) : 0 < x.held f := by
  obtain ⟨o, pc⟩ := x
  cases pc <;> simp only [Pc.raw, List.mem_cons, List.not_mem_nil, or_false] at hf
  case openSet g w =>
    obtain ⟨fd, hfd⟩ := h
    have := pointing_pos hfd
    subst hf
    exact Nat.lt_of_lt_of_le this (Nat.le_add_right _ _)
  all_goals
    apply Nat.lt_of_lt_of_le _ (Nat.le_add_left _ _)
    apply List.count_pos_iff.mpr
    simp [Pc.inHand, hf]

theorem Sound.held_le (h : Sound s) (p : Fin n) (f : Fin NFILE) :
    (s.procs p).held f ≤ (s.files f).ref := by
  rw [h.ref f]
  exact le_sum (fun x : Proc n => x.held f) s.procs p

theorem Sound.held_raw (h : Sound s) {q : Fin n} (hf : f ∈ (s.procs q).pc.raw)
    (hp : p ≠ q) : (s.procs p).held f = 0 := by
  have hq := held_pos_of_raw (h.loc q) hf
  have hsum : (s.procs p).held f + (s.procs q).held f ≤ ∑ r, (s.procs r).held f := by
    rw [← Finset.sum_pair (f := fun r => (s.procs r).held f) hp]
    exact Finset.sum_le_sum_of_subset (Finset.subset_univ _)
  rw [← h.ref f, (h.raw q f hf).2] at hsum
  omega

theorem Sound.turn (h : Sound s) {y : Proc n} {s' : System n}
    (hprocs : s'.procs = update s.procs p y) (hparents : s.Parents p y)
    (hchild : s.Adopts p y.pc) (hlocal : y.Local)
    (href : ∀ f, (s'.files f).ref + (s.procs p).held f = (s.files f).ref + y.held f)
    (htype : ∀ f, (s'.files f).ref = 0 → (s'.files f).type = .none)
    (hraw : ∀ f ∈ y.pc.raw, (s'.files f).type = .none ∧ (s'.files f).ref = 1)
    (hother : ∀ q ≠ p, ∀ f ∈ (s.procs q).pc.raw, s'.files f = s.files f)
    (hends : ∀ g w, ∑ f, (s'.files f).isEnd g w + y.pc.closing g w + s'.closes.count (g, w) +
      (if g < s.fresh then 1 else 0) = ∑ f, (s.files f).isEnd g w + (s.procs p).pc.closing g w +
      s.closes.count (g, w) + if g < s'.fresh then 1 else 0)
    (hopens : ∀ g < s'.fresh, ∀ w, (s'.pipes g).isOpen w = true ↔ (g, w) ∉ s'.closes)
    (hpages : ∀ g, s'.freed.count g + y.pc.freeing g + (if bothClosed s.closes g then 1 else 0) =
      s.freed.count g + (s.procs p).pc.freeing g + if bothClosed s'.closes g then 1 else 0)
    (hpanic : s'.panic = false) : Sound s' := by
  constructor
  · intro f
    have hsum := sum_update (fun x : Proc n => x.held f) s.procs p y
    have hnew := href f
    rw [h.ref f] at hnew
    rw [hprocs]
    omega
  · exact htype
  · rw [hprocs]
    apply (forall_update_iff s.procs fun _ x => ∀ f ∈ x.pc.raw,
      (s'.files f).type = .none ∧ (s'.files f).ref = 1).mpr
    refine ⟨hraw, fun q hq f hf => ?_⟩
    have hold := h.raw q f hf
    rw [hother q hq f hf]
    exact hold
  · intro g w
    have hsum := sum_update (fun x : Proc n => x.pc.closing g w) s.procs p y
    have hold := h.ends g w
    have hnew := hends g w
    rw [hprocs]
    omega
  · exact hopens
  · intro g
    have hsum := sum_update (fun x : Proc n => x.pc.freeing g) s.procs p y
    have hold := h.pages g
    have hnew := hpages g
    rw [hprocs]
    omega
  · rw [hprocs]
    exact (forall_update_iff s.procs fun _ x => x.Local).mpr ⟨hlocal, fun q _ => h.loc q⟩
  · rw [hprocs]
    apply (forall_update_iff s.procs fun _ x => ∀ c i, x.pc.child = some (c, i) →
      (update s.procs p y c).pc = .embryo ∧
        ∀ j : Fin NOFILE, i ≤ j.val → (update s.procs p y c).ofile j = none).mpr
    constructor
    · intro c i hc
      obtain ⟨hcp, hembryo, hnone, _⟩ := hchild c i hc
      rw [update_of_ne hcp]
      exact ⟨hembryo, hnone⟩
    · intro q _ c i hc
      by_cases hcp : c = p
      · subst hcp
        rw [update_self]
        exact hparents q i hc
      · rw [update_of_ne hcp]
        exact h.child q c i hc
  · intro a b hab c i j
    rw [hprocs]
    by_cases ha : a = p
    · subst ha
      rw [update_self, update_of_ne hab.symm]
      exact fun hc => (hchild c i hc).2.2.2 b hab.symm j
    · rw [update_of_ne ha]
      by_cases hb : b = p
      · subst hb
        rw [update_self]
        exact fun hc hc' => (hchild c j hc').2.2.2 a hab i hc
      · rw [update_of_ne hb]
        exact h.alone a b hab c i j
  · exact hpanic

theorem Sound.parents (h : Sound s) (hp : (s.procs p).pc ≠ .embryo) (y : Proc n) :
    s.Parents p y :=
  fun q i hq => absurd (h.child q p i hq).1 hp

theorem Sound.not_raw (h : Sound s)
    (hf : (s.files f).ref = 0 ∨ 0 < (s.procs p).held f) (q : Fin n) (hq : q ≠ p) :
    f ∉ (s.procs q).pc.raw := by
  intro hmem
  have hzero := h.held_raw hmem hq.symm
  have hone := (h.raw q f hmem).2
  omega

theorem adopts_of_none {pc : Pc n} (h : pc.child = none) : s.Adopts p pc := by
  intro c i hc
  simp [h] at hc

variable {c : Fin n}

theorem Sound.adopts (h : Sound s) {x : Proc n} (hx : s.procs p = x) {pc : Pc n} {i i' : ℕ}
    (hold : x.pc.child = some (c, i)) (hnew : pc.child = some (c, i')) (hi : i ≤ i') :
    s.Adopts p pc := by
  subst hx
  intro c' j hc
  rw [hnew] at hc
  obtain ⟨rfl, rfl⟩ := Prod.mk.inj (Option.some.inj hc)
  obtain ⟨hembryo, hnone⟩ := h.child p c i hold
  refine ⟨?_, hembryo, fun k hk => hnone k (hi.trans hk), fun q hq i'' => ?_⟩
  · rintro rfl
    simp [hembryo, Pc.child] at hold
  · exact h.alone p q hq.symm c i i'' hold

section Turn

variable {x y : Proc n}

theorem Sound.move (h : Sound s) (hx : s.procs p = x) (hparents : s.Parents p y)
    (hchild : s.Adopts p y.pc) (hlocal : y.Local) (hheld : ∀ f, y.held f = x.held f)
    (hraw : y.pc.raw ⊆ x.pc.raw) (hclosing : ∀ g w, y.pc.closing g w = x.pc.closing g w)
    (hfreeing : ∀ g, y.pc.freeing g = x.pc.freeing g) : Sound (s.set p y) := by
  subst hx
  apply h.turn rfl hparents hchild hlocal
  · exact fun f => by rw [hheld f]; rfl
  · exact h.type
  · exact fun f hf => h.raw p f (hraw hf)
  · exact fun _ _ _ _ => rfl
  · exact fun g w => by rw [hclosing g w]; rfl
  · exact h.opens
  · exact fun g => by rw [hfreeing g]; rfl
  · exact h.panic

theorem Sound.refile (h : Sound s) (hx : s.procs p = x) {f : Fin NFILE} {z : File}
    (hf : ∀ q ≠ p, f ∉ (s.procs q).pc.raw) (hparents : s.Parents p y)
    (hchild : s.Adopts p y.pc) (hlocal : y.Local)
    (href : z.ref + x.held f = (s.files f).ref + y.held f)
    (hheld : ∀ f' ≠ f, y.held f' = x.held f') (htype : z.ref = 0 → z.type = .none)
    (hraw : ∀ f' ∈ y.pc.raw, (f' = f ∧ z.type = .none ∧ z.ref = 1) ∨ f' ≠ f ∧ f' ∈ x.pc.raw)
    (hends : ∀ g w, z.isEnd g w + y.pc.closing g w = (s.files f).isEnd g w + x.pc.closing g w)
    (hfreeing : ∀ g, y.pc.freeing g = x.pc.freeing g) : Sound ((s.setFile f z).set p y) := by
  subst hx
  apply h.turn rfl hparents hchild hlocal
  · intro f'
    by_cases hff : f' = f
    · subst hff
      simpa [System.set, System.setFile] using href
    · simp [System.set, System.setFile, hff, hheld f' hff]
  · exact (forall_update_iff s.files fun _ x => x.ref = 0 → x.type = .none).mpr
      ⟨htype, fun f' _ => h.type f'⟩
  · intro f' hf'
    obtain ⟨rfl, hz⟩ | ⟨hne, hmem⟩ := hraw f' hf'
    · simpa [System.set, System.setFile] using hz
    · simpa [System.set, System.setFile, hne] using h.raw p f' hmem
  · intro q hq f' hf'
    apply update_of_ne
    rintro rfl
    exact hf q hq hf'
  · intro g w
    have hsum := sum_update (fun x : File => x.isEnd g w) s.files f z
    have hnew := hends g w
    change ∑ f', (update s.files f z f').isEnd g w + y.pc.closing g w +
      s.closes.count (g, w) + (if g < s.fresh then 1 else 0) = _ + _ + _ +
      if g < s.fresh then 1 else 0
    omega
  · exact h.opens
  · exact fun g => by rw [hfreeing g]; rfl
  · exact h.panic

end Turn

section Next

variable (next : Next)

@[simp] theorem Next.pc_inHand : (next.pc : Pc n).inHand = next.inHand := by cases next <;> rfl

@[simp] theorem Next.pc_skip : (next.pc : Pc n).skip = next.skip := by cases next <;> rfl

@[simp] theorem Next.pc_closing (g : ℕ) (w : Bool) : (next.pc : Pc n).closing g w = 0 := by
  cases next <;> rfl

@[simp] theorem Next.pc_freeing (g : ℕ) : (next.pc : Pc n).freeing g = 0 := by cases next <;> rfl

@[simp] theorem Next.pc_raw : (next.pc : Pc n).raw = [] := by cases next <;> rfl

@[simp] theorem Next.pc_child : (next.pc : Pc n).child = none := by cases next <;> rfl

theorem Next.local_pc {o : Fin NOFILE → Option (Fin NFILE)} (h : next.Local o) :
    Proc.Local (⟨o, next.pc⟩ : Proc n) := by
  cases next <;> exact h

end Next

theorem held_eq (o : Fin NOFILE → Option (Fin NFILE)) {pc : Pc n} (h : pc.skip = none)
    (f : Fin NFILE) : Proc.held ⟨o, pc⟩ f = pointing o f + pc.inHand.count f := by
  simp only [Proc.held, Proc.counted, h]

theorem held_skip (o : Fin NOFILE → Option (Fin NFILE)) {pc : Pc n} (h : pc.skip = some fd)
    (f : Fin NFILE) : Proc.held ⟨o, pc⟩ f = pointing (update o fd none) f + pc.inHand.count f := by
  simp only [Proc.held, Proc.counted, h]

theorem fdalloc_none {x : Proc n} (h : fdalloc x = some fd) : x.ofile fd = none := by
  simpa using List.find?_some h

theorem filealloc_ref {f : Fin NFILE} (h : s.filealloc = some f) : (s.files f).ref = 0 := by
  simpa using List.find?_some h

section Steps

variable {o : Fin NOFILE → Option (Fin NFILE)} {pc pc' : Pc n} {f : Fin NFILE}

theorem System.goto_eq (hx : s.procs p = ⟨o, pc⟩) (pc' : Pc n) :
    s.goto p pc' = s.set p ⟨o, pc'⟩ := by
  simp only [System.goto, hx]

/-- The points of a call at which every descriptor counts, no child is being filled and no
pipe is being closed. -/
structure Pc.Plain (pc : Pc n) : Prop where
  embryo : pc ≠ .embryo
  child : pc.child = none
  skip : pc.skip = none
  closing : ∀ g w, pc.closing g w = 0
  freeing : ∀ g, pc.freeing g = 0

def Pc.plain : Pc n → Bool
  | .embryo | .dup _ _ _ | .pipeclose _ _ _ | .kfree _ _ | .exitClear _ | .fork _ _
  | .forkGive _ _ _ => false
  | .close _ next => next.skip.isNone
  | _ => true

theorem Pc.plain_iff (h : pc.plain = true) : pc.Plain := by
  cases pc <;> try exact Bool.noConfusion h
  case close f next =>
    exact ⟨by simp, rfl, Option.isNone_iff_eq_none.mp h, fun _ _ => rfl, fun _ => rfl⟩
  all_goals exact ⟨by simp, rfl, rfl, fun _ _ => rfl, fun _ => rfl⟩

theorem Sound.goto (h : Sound s) (hx : s.procs p = ⟨o, pc⟩) (hpc : pc.plain) (hpc' : pc'.plain)
    (hlocal : Proc.Local ⟨o, pc'⟩) (hhand : pc'.inHand = pc.inHand) (hraw : pc'.raw ⊆ pc.raw) :
    Sound (s.goto p pc') := by
  have hpc := Pc.plain_iff hpc
  have hpc' := Pc.plain_iff hpc'
  rw [System.goto_eq hx]
  apply h.move hx (h.parents (by simpa [hx] using hpc.embryo) _) (adopts_of_none hpc'.child) hlocal
  · intro f
    rw [held_eq o hpc.skip, held_eq o hpc'.skip, hhand]
  · exact hraw
  · exact fun g w => (hpc'.closing g w).trans (hpc.closing g w).symm
  · exact fun g => (hpc'.freeing g).trans (hpc.freeing g).symm

theorem Sound.filealloc (h : Sound s) (hx : s.procs p = ⟨o, pc⟩) (hf : s.filealloc = some f)
    (hpc : pc.plain) (hpc' : pc'.plain) (hlocal : Proc.Local ⟨o, pc'⟩)
    (hhand : pc'.inHand = pc.inHand ++ [f]) (hraw : pc'.raw ⊆ pc.raw ++ [f]) :
    Sound ((s.setFile f { s.files f with ref := 1 }).goto p pc') := by
  have hpc := Pc.plain_iff hpc
  have hpc' := Pc.plain_iff hpc'
  have hfree := filealloc_ref hf
  have hheld : ∀ f', Proc.held ⟨o, pc'⟩ f' = Proc.held ⟨o, pc⟩ f' + if f = f' then 1 else 0 := by
    intro f'
    rw [held_eq _ hpc'.skip, held_eq _ hpc.skip, hhand, List.count_append, List.count_singleton,
      Nat.add_assoc]
    simp only [beq_iff_eq]
  have hgoto := System.goto_eq (s := s.setFile f { s.files f with ref := 1 }) hx pc'
  rw [hgoto]
  apply h.refile hx (h.not_raw (.inl hfree)) (h.parents (by simpa [hx] using hpc.embryo) _)
    (adopts_of_none hpc'.child) hlocal
  · rw [hheld f, hfree, if_pos rfl]
    dsimp only
    omega
  · intro f' hne
    rw [hheld f', if_neg hne.symm]
    rfl
  · exact fun h1 => absurd h1 Nat.one_ne_zero
  · intro f' hf'
    by_cases hff : f' = f
    · exact .inl ⟨hff, h.type f hfree, rfl⟩
    · refine .inr ⟨hff, (List.mem_append.mp (hraw hf')).resolve_right fun hmem => hff ?_⟩
      exact List.mem_singleton.mp hmem
  · exact fun g w => by rw [hpc'.closing g w, hpc.closing g w]; rfl
  · exact fun g => (hpc'.freeing g).trans (hpc.freeing g).symm

theorem Sound.setFd (h : Sound s) (hx : s.procs p = ⟨o, pc⟩) (hpc : pc.plain) (hpc' : pc'.plain)
    {v : Option (Fin NFILE)} (hlocal : Proc.Local (⟨update o fd v, pc'⟩ : Proc n))
    (hhand : ∀ f, pc'.inHand.count f + v.toList.count f = pc.inHand.count f + (o fd).toList.count f)
    (hraw : pc'.raw ⊆ pc.raw) : Sound (s.set p ((⟨o, pc⟩ : Proc n).setFd fd v pc')) := by
  have hpc := Pc.plain_iff hpc
  have hpc' := Pc.plain_iff hpc'
  apply h.move hx (h.parents (by simpa [hx] using hpc.embryo) _) (adopts_of_none hpc'.child) hlocal
  · intro f
    have hslots := pointing_update o fd v f
    have hcount : ∀ v : Option (Fin NFILE), v.toList.count f = if v = some f then 1 else 0 := by
      intro v
      cases v <;> simp [List.count_singleton]
    have := hhand f
    rw [hcount, hcount] at this
    change Proc.held ⟨update o fd v, pc'⟩ f = Proc.held ⟨o, pc⟩ f
    rw [held_eq _ hpc.skip, held_eq _ hpc'.skip]
    omega
  · exact hraw
  · exact fun g w => (hpc'.closing g w).trans (hpc.closing g w).symm
  · exact fun g => (hpc'.freeing g).trans (hpc.freeing g).symm

theorem Sound.filedup (h : Sound s) (hx : s.procs p = ⟨o, pc⟩) (hchild : s.Adopts p pc')
    (hembryo : pc ≠ .embryo) (hlocal : Proc.Local ⟨o, pc'⟩) (hpos : 0 < Proc.held ⟨o, pc⟩ f)
    (hheld : ∀ f', Proc.held ⟨o, pc'⟩ f' = Proc.held ⟨o, pc⟩ f' + if f = f' then 1 else 0)
    (hraw : pc'.raw = []) (hclosing : ∀ g w, pc'.closing g w = pc.closing g w)
    (hfreeing : ∀ g, pc'.freeing g = pc.freeing g) : Sound (s.filedup p f pc') := by
  have hle := h.held_le p f
  rw [hx] at hle
  rw [System.filedup, if_neg (by omega)]
  have hgoto := System.goto_eq
    (s := s.setFile f { s.files f with ref := (s.files f).ref + 1 }) hx pc'
  rw [hgoto]
  apply h.refile hx (h.not_raw (.inr (by simpa [hx] using hpos)))
    (h.parents (by simpa [hx] using hembryo) _) hchild hlocal
  · rw [hheld f, if_pos rfl]
    dsimp only
    omega
  · intro f' hne
    rw [hheld f', if_neg hne.symm]
    rfl
  · exact fun h0 => absurd h0 (Nat.succ_ne_zero _)
  · simp [hraw]
  · exact fun g w => by rw [hclosing g w]; rfl
  · exact hfreeing

theorem held_next (o : Fin NOFILE → Option (Fin NFILE)) {pc : Pc n} (next : Next)
    (hskip : pc.skip = next.skip) (hhand : pc.inHand = next.inHand) (f : Fin NFILE) :
    Proc.held ⟨o, pc⟩ f = Proc.held (⟨o, next.pc⟩ : Proc n) f := by
  simp only [Proc.held, Proc.counted, hskip, hhand, Next.pc_skip, Next.pc_inHand]

theorem held_close (o : Fin NOFILE → Option (Fin NFILE)) (g : Fin NFILE) (next : Next)
    (f : Fin NFILE) : Proc.held (⟨o, .close g next⟩ : Proc n) f =
      Proc.held (⟨o, next.pc⟩ : Proc n) f + if g = f then 1 else 0 := by
  have hhand : (Pc.close g next : Pc n).inHand.count f =
      (next.pc : Pc n).inHand.count f + if g = f then 1 else 0 := by
    rw [Next.pc_inHand, Pc.inHand, List.count_cons]
    simp only [beq_iff_eq]
  have hcounted : Proc.counted (⟨o, .close g next⟩ : Proc n) =
      Proc.counted (⟨o, next.pc⟩ : Proc n) := by
    simp only [Proc.counted, Next.pc_skip]
    rfl
  simp only [Proc.held, hcounted, hhand, Nat.add_assoc]

theorem held_exit {o : Fin NOFILE → Option (Fin NFILE)} {g : Fin NFILE} (h : o fd = some g)
    (f : Fin NFILE) : Proc.held (⟨o, .close g (.exit fd)⟩ : Proc n) f = pointing o f := by
  have hslots := pointing_update o fd none f
  have hskip : Proc.held (⟨o, .exitClear fd⟩ : Proc n) f =
      pointing (update o fd none) f + 0 := held_skip o rfl f
  simp only [h, Option.some.injEq, reduceCtorEq, if_false, Nat.add_zero] at hslots
  rw [held_close, Next.pc, hskip, ← hslots, Nat.add_zero]

variable {next : Next}

theorem Sound.giveUp (h : Sound s) (hx : s.procs p = ⟨o, .close f next⟩) {z : File}
    (hskip : pc'.skip = next.skip) (hhand : pc'.inHand = next.inHand) (hchild : pc'.child = none)
    (hraw : pc'.raw = []) (hlocal : Proc.Local ⟨o, pc'⟩) (href : z.ref + 1 = (s.files f).ref)
    (htype : z.ref = 0 → z.type = .none)
    (hends : ∀ g w, z.isEnd g w + pc'.closing g w = (s.files f).isEnd g w)
    (hfreeing : ∀ g, pc'.freeing g = 0) : Sound ((s.setFile f z).goto p pc') := by
  have hheld : ∀ f', Proc.held (⟨o, .close f next⟩ : Proc n) f' =
      Proc.held ⟨o, pc'⟩ f' + if f = f' then 1 else 0 := by
    intro f'
    rw [held_next o next hskip hhand, held_close]
  have hself := hheld f
  rw [if_pos rfl] at hself
  have hgoto := System.goto_eq (s := s.setFile f z) hx pc'
  rw [hgoto]
  apply h.refile hx (h.not_raw (.inr (by rw [hx]; omega))) (h.parents (by simp [hx]) _)
    (adopts_of_none hchild) hlocal
  · omega
  · intro f' hne
    rw [hheld f', if_neg hne.symm]
    rfl
  · exact htype
  · simp [hraw]
  · exact hends
  · exact hfreeing

theorem Sound.fileclose (h : Sound s) (hx : s.procs p = ⟨o, .close f next⟩) :
    Sound (s.fileclose p f next) := by
  have hle := h.held_le p f
  rw [hx, held_close, if_pos rfl] at hle
  have hlocal : next.Local o := by simpa [hx, Proc.Local] using h.loc p
  unfold System.fileclose
  rw [if_neg (by omega)]
  split_ifs with hmore hpipe
  · apply h.giveUp hx (Next.pc_skip next) (Next.pc_inHand next) (Next.pc_child next)
      (Next.pc_raw next) (next.local_pc hlocal)
    · dsimp only
      omega
    · exact fun h0 => absurd h0 (by dsimp only; omega)
    · exact fun g w => by rw [Next.pc_closing]; rfl
    · exact Next.pc_freeing next
  · -- the last reference to an end of a pipe: the end passes to `pipeclose`
    refine h.giveUp hx rfl rfl rfl rfl hlocal ?_ (fun _ => rfl) (fun g w => ?_) fun _ => rfl
    · dsimp only
      omega
    · simp [File.isEnd, Pc.closing, hpipe]
  · apply h.giveUp hx (Next.pc_skip next) (Next.pc_inHand next) (Next.pc_child next)
      (Next.pc_raw next) (next.local_pc hlocal)
    · dsimp only
      omega
    · exact fun _ => rfl
    · intro g w
      rw [Next.pc_closing]
      simp [File.isEnd, hpipe]
    · exact Next.pc_freeing next

theorem Sound.pass (h : Sound s) (next : Next) (hx : s.procs p = ⟨o, pc⟩) {s' : System n}
    (hprocs : s'.procs = update s.procs p ⟨o, pc'⟩) (hfiles : s'.files = s.files)
    (hfresh : s'.fresh = s.fresh) (hpanic : s'.panic = s.panic)
    (hskip : pc.skip = next.skip) (hhand : pc.inHand = next.inHand) (hembryo : pc ≠ .embryo)
    (hskip' : pc'.skip = next.skip) (hhand' : pc'.inHand = next.inHand)
    (hchild : pc'.child = none) (hraw : pc'.raw = []) (hlocal : Proc.Local ⟨o, pc'⟩)
    (hends : ∀ g w, pc'.closing g w + s'.closes.count (g, w) =
      pc.closing g w + s.closes.count (g, w))
    (hopens : ∀ g < s.fresh, ∀ w, (s'.pipes g).isOpen w = true ↔ (g, w) ∉ s'.closes)
    (hpages : ∀ g, s'.freed.count g + pc'.freeing g + (if bothClosed s.closes g then 1 else 0) =
      s.freed.count g + pc.freeing g + if bothClosed s'.closes g then 1 else 0) : Sound s' := by
  apply h.turn hprocs (h.parents (by simpa [hx] using hembryo) _) (adopts_of_none hchild) hlocal
  · intro f
    rw [hfiles, hx, held_next o next hskip hhand, held_next o next hskip' hhand']
  · rw [hfiles]
    exact h.type
  · simp [hraw]
  · intro _ _ f _
    rw [hfiles]
  · intro g w
    have := hends g w
    rw [hfiles, hfresh, hx]
    dsimp only
    omega
  · rw [hfresh]
    exact hopens
  · rw [hx]
    exact hpages
  · rw [hpanic]
    exact h.panic

theorem Sound.kfree (h : Sound s) {g : ℕ} (hx : s.procs p = ⟨o, .kfree g next⟩) :
    Sound { s.goto p next.pc with freed := s.freed ++ [g] } := by
  have hlocal : next.Local o := by simpa [hx, Proc.Local] using h.loc p
  rw [System.goto_eq hx]
  refine h.pass next hx rfl rfl rfl rfl rfl rfl (by simp) (Next.pc_skip next)
    (Next.pc_inHand next) (Next.pc_child next) (Next.pc_raw next) (next.local_pc hlocal)
    (fun g w => ?_) h.opens fun g' => ?_
  · rw [Next.pc_closing]
    rfl
  · rw [Next.pc_freeing]
    change (s.freed ++ [g]).count g' + 0 + (if bothClosed s.closes g' then 1 else 0) =
      s.freed.count g' + (if g = g' then 1 else 0) + if bothClosed s.closes g' then 1 else 0
    rw [List.count_append, List.count_singleton]
    simp only [beq_iff_eq]
    omega

theorem Pipe.isOpen_shut (x : Pipe) (w w' : Bool) :
    (x.shut w).isOpen w' = true ↔ w' ≠ w ∧ x.isOpen w' = true := by
  cases w <;> cases w' <;> simp [Pipe.shut, Pipe.isOpen]

theorem Pipe.closed_shut (x : Pipe) (w : Bool) :
    ((x.shut w).readopen = false ∧ (x.shut w).writeopen = false) ↔ x.isOpen (!w) = false := by
  cases w <;> simp [Pipe.shut, Pipe.isOpen]

theorem bothClosed_append (closes : List (ℕ × Bool)) (g g' : ℕ) (w : Bool) :
    bothClosed (closes ++ [(g, w)]) g' ↔
      bothClosed closes g' ∨ g' = g ∧ (g, !w) ∈ closes := by
  simp only [bothClosed, List.mem_append, List.mem_singleton, Prod.mk.injEq]
  cases w <;> grind

section Sound

variable (h : Sound s)
include h

theorem Sound.closing {g : ℕ} {w : Bool} {next : Next}
    (hx : s.procs p = ⟨o, .pipeclose g w next⟩) : g < s.fresh ∧ (g, w) ∉ s.closes := by
  have hle := le_sum (fun x : Proc n => x.pc.closing g w) s.procs p
  have hends := h.ends g w
  have hself : (s.procs p).pc.closing g w = 1 := by simp [hx, Pc.closing]
  have hcount : s.closes.count (g, w) = 0 ∧ g < s.fresh := by
    split_ifs at hends <;> omega
  exact ⟨hcount.2, List.count_eq_zero.mp hcount.1⟩

theorem Sound.pipeclose {g : ℕ} {w : Bool} {next : Next}
    (hx : s.procs p = ⟨o, .pipeclose g w next⟩) : Sound (s.pipeclose p g w next) := by
  have hlocal : next.Local o := by simpa [hx, Proc.Local] using h.loc p
  obtain ⟨hfresh, hnew⟩ := h.closing hx
  have hother : (s.pipes g).isOpen (!w) = false ↔ (g, !w) ∈ s.closes := by
    rw [← Bool.not_eq_true, h.opens g hfresh (!w), not_not]
  have hopens : ∀ g' < s.fresh, ∀ w',
      (update s.pipes g ((s.pipes g).shut w) g').isOpen w' = true ↔
        (g', w') ∉ s.closes ++ [(g, w)] := by
    intro g' hg' w'
    by_cases hgg : g' = g
    · subst hgg
      rw [update_self, Pipe.isOpen_shut, h.opens g' hfresh w']
      simp only [List.mem_append, List.mem_singleton, Prod.mk.injEq]
      grind
    · rw [update_of_ne hgg, h.opens g' hg' w']
      simp [hgg]
  have hends : ∀ g' w', (s.closes ++ [(g, w)]).count (g', w') =
      (if g = g' ∧ w = w' then 1 else 0) + s.closes.count (g', w') := by
    intro g' w'
    rw [List.count_append, List.count_singleton, Nat.add_comm]
    simp only [beq_iff_eq, Prod.mk.injEq]
  have hold : ¬ bothClosed s.closes g := by
    intro hboth
    cases w
    · exact hnew hboth.1
    · exact hnew hboth.2
  have hpages : ∀ g', (if bothClosed (s.closes ++ [(g, w)]) g' then 1 else 0) =
      (if bothClosed s.closes g' then 1 else 0) +
        if g = g' ∧ (s.pipes g).isOpen (!w) = false then 1 else 0 := by
    intro g'
    simp only [bothClosed_append, hother]
    grind
  rw [System.pipeclose, System.goto_eq (s := { s with
    pipes := update s.pipes g ((s.pipes g).shut w), closes := s.closes ++ [(g, w)] }) hx]
  simp only [Pipe.closed_shut]
  split_ifs with hlast
  · refine h.pass next hx rfl rfl rfl rfl rfl rfl (by simp) rfl rfl rfl rfl hlocal
      (fun g' w' => ?_) hopens fun g' => ?_
    · exact (Nat.zero_add _).trans (hends g' w')
    · have := hpages g'
      simp only [hlast, and_true] at this
      change s.freed.count g' + (if g = g' then 1 else 0) +
        (if bothClosed s.closes g' then 1 else 0) =
        s.freed.count g' + 0 + if bothClosed (s.closes ++ [(g, w)]) g' then 1 else 0
      omega
  · refine h.pass next hx rfl rfl rfl rfl rfl rfl (by simp) (Next.pc_skip next)
      (Next.pc_inHand next) (Next.pc_child next) (Next.pc_raw next) (next.local_pc hlocal)
      (fun g' w' => ?_) hopens fun g' => ?_
    · rw [Next.pc_closing]
      exact (Nat.zero_add _).trans (hends g' w')
    · have := hpages g'
      rw [if_neg (show ¬ (g = g' ∧ _) from fun hc => hlast hc.2)] at this
      rw [Next.pc_freeing]
      change s.freed.count g' + 0 + (if bothClosed s.closes g' then 1 else 0) =
        s.freed.count g' + 0 + if bothClosed (s.closes ++ [(g, w)]) g' then 1 else 0
      omega

theorem Sound.initPipe {f0 f1 : Fin NFILE} (hx : s.procs p = ⟨o, .pipePage f0 f1⟩) :
    Sound ((s.initPipe f0 f1).goto p (.pipeFd0 f0 f1)) := by
  have hraw : ∀ f ∈ [f0, f1], (s.files f).type = .none ∧ (s.files f).ref = 1 := by
    simpa [hx, Pc.raw] using h.raw p
  obtain ⟨htype0, href0⟩ := hraw f0 (by simp)
  obtain ⟨htype1, href1⟩ := hraw f1 (by simp)
  have hne : f1 ≠ f0 := by
    rintro rfl
    have hle := h.held_le p f1
    rw [hx, held_eq o rfl, href1, Pc.inHand, List.count_cons_self, List.count_singleton_self] at hle
    omega
  have hhand : ∀ f ∈ [f0, f1], 0 < (s.procs p).held f := by
    intro f hf
    rw [hx, held_eq o rfl]
    have : 0 < (Pc.pipePage f0 f1 : Pc n).inHand.count f := List.count_pos_iff.mpr hf
    omega
  have hfiles : ((s.initPipe f0 f1).goto p (.pipeFd0 f0 f1)).files =
      update (update s.files f0 ⟨1, .pipe, s.fresh, false⟩) f1
        ⟨1, .pipe, s.fresh, true⟩ := by
    simp [System.initPipe, System.goto, System.set, System.setFile, hne, href0, href1]
  have hprocs : ((s.initPipe f0 f1).goto p (.pipeFd0 f0 f1)).procs =
      update s.procs p ⟨o, .pipeFd0 f0 f1⟩ := by
    simp [System.initPipe, System.goto, System.set, System.setFile, hx]
  have hother : ∀ f, f ≠ f0 → f ≠ f1 →
      ((s.initPipe f0 f1).goto p (.pipeFd0 f0 f1)).files f = s.files f := by
    intro f hf0 hf1
    rw [hfiles, update_of_ne hf1, update_of_ne hf0]
  have href : ∀ f, (((s.initPipe f0 f1).goto p (.pipeFd0 f0 f1)).files f).ref =
      (s.files f).ref := by
    intro f
    rw [hfiles]
    by_cases hf1 : f = f1
    · rw [hf1, update_self, href1]
    · rw [update_of_ne hf1]
      by_cases hf0 : f = f0
      · rw [hf0, update_self, href0]
      · rw [update_of_ne hf0]
  apply h.turn hprocs (h.parents (by simp [hx]) _) (adopts_of_none rfl) trivial
  · intro f
    rw [href f, hx]
    rfl
  · intro f hf
    rw [href f] at hf
    have hf0 : f ≠ f0 := by
      rintro rfl
      omega
    have hf1 : f ≠ f1 := by
      rintro rfl
      omega
    rw [hother f hf0 hf1]
    exact h.type f hf
  · simp [Pc.raw]
  · intro q hq f hf
    apply hother
    · rintro rfl
      exact h.not_raw (.inr (hhand f (by simp))) q hq hf
    · rintro rfl
      exact h.not_raw (.inr (hhand f (by simp))) q hq hf
  · intro g w
    have hsum0 := sum_update (fun x : File => x.isEnd g w) s.files f0 ⟨1, .pipe, s.fresh, false⟩
    have hsum1 := sum_update (fun x : File => x.isEnd g w)
      (update s.files f0 ⟨1, .pipe, s.fresh, false⟩) f1 ⟨1, .pipe, s.fresh, true⟩
    rw [update_of_ne hne] at hsum1
    have hold : ∀ f ∈ [f0, f1], (s.files f).isEnd g w = 0 := by
      intro f hf
      simp [File.isEnd, (hraw f hf).1]
    rw [hold f0 (by simp)] at hsum0
    rw [hold f1 (by simp)] at hsum1
    have hnew : File.isEnd g w ⟨1, .pipe, s.fresh, false⟩ +
        File.isEnd g w ⟨1, .pipe, s.fresh, true⟩ + (if g < s.fresh then 1 else 0) =
          if g < s.fresh + 1 then 1 else 0 := by
      simp only [File.isEnd, true_and]
      cases w <;> grind
    rw [hfiles, hx]
    change _ + 0 + s.closes.count (g, w) + _ = _ + 0 + _ + if g < s.fresh + 1 then 1 else 0
    omega
  · intro g hg w
    have hends := h.ends s.fresh w
    rw [if_neg (Nat.lt_irrefl _)] at hends
    change (update s.pipes s.fresh ⟨true, true⟩ g).isOpen w = true ↔ (g, w) ∉ s.closes
    by_cases hlast : g = s.fresh
    · subst hlast
      have hnot : (s.fresh, w) ∉ s.closes := List.count_eq_zero.mp (by omega)
      rw [update_self]
      cases w <;> simp [Pipe.isOpen, hnot]
    · rw [update_of_ne hlast]
      exact h.opens g (Nat.lt_of_le_of_ne (Nat.le_of_lt_succ hg) hlast) w
  · intro g
    rw [hx]
    rfl
  · exact h.panic

theorem Sound.child_ne (hx : s.procs p = ⟨o, pc⟩) {i : ℕ}
    (hc : pc.child = some (c, i)) : c ≠ p := by
  rintro rfl
  have hembryo := (h.child c c i (by simpa [hx] using hc)).1
  rw [hx] at hembryo
  simp only at hembryo
  simp [hembryo, Pc.child] at hc

theorem Sound.forkGive {i : Fin NOFILE} (hx : s.procs p = ⟨o, .forkGive c i f⟩) :
    Sound ((s.set c ((s.procs c).setFd i (some f) (s.procs c).pc)).goto p
      (.fork c (i.val + 1))) := by
  have hne := h.child_ne hx rfl
  have hslot : o i = some f := by simpa [hx, Proc.Local] using h.loc p
  have hchild : (s.procs p).pc.child = some (c, i.val) := by simp [hx, Pc.child]
  have hle := h.held_le p f
  have hpos := pointing_pos hslot
  rw [hx, held_eq o rfl, Pc.inHand, List.count_singleton_self] at hle
  obtain ⟨oc, pcc, hxc⟩ : ∃ o pc, s.procs c = ⟨o, pc⟩ := ⟨_, _, rfl⟩
  obtain rfl : pcc = .embryo := by simpa [hxc] using (h.child p c i hchild).1
  have hnone : ∀ j : Fin NOFILE, i.val ≤ j.val → oc j = none := by
    simpa [hxc] using (h.child p c i hchild).2
  have hheld : ∀ f', Proc.held (⟨o, .forkGive c i f⟩ : Proc n) f' =
      Proc.held (⟨o, .fork c (i.val + 1)⟩ : Proc n) f' + if f = f' then 1 else 0 := by
    intro f'
    rw [held_eq o rfl, held_eq o rfl]
    change _ + [f].count f' = _ + 0 + _
    rw [List.count_singleton]
    simp only [beq_iff_eq]
    rfl
  have hself := hheld f
  rw [if_pos rfl] at hself
  -- first the parent lets go of the reference, then the child takes it
  have h₁ : Sound ((s.setFile f { s.files f with ref := (s.files f).ref - 1 }).set p
      ⟨o, .fork c (i.val + 1)⟩) := by
    refine h.refile hx (h.not_raw (.inr (by rw [hx]; omega))) (h.parents (by simp [hx]) _)
      (h.adopts hx rfl rfl (Nat.le_succ _)) trivial ?_ (fun f' hf' => ?_) (fun h0 => ?_)
      (by simp [Pc.raw]) (fun _ _ => rfl) fun _ => rfl
    · dsimp only
      omega
    · rw [hheld f', if_neg hf'.symm]
      rfl
    · simp only at h0
      omega
  have hxc₁ : ((s.setFile f { s.files f with ref := (s.files f).ref - 1 }).set p
      ⟨o, .fork c (i.val + 1)⟩).procs c = ⟨oc, .embryo⟩ := by
    simp only [System.set, System.setFile, update_of_ne hne, hxc]
  have heq : (s.set c ((s.procs c).setFd i (some f) (s.procs c).pc)).goto p (.fork c (i.val + 1)) =
      (((s.setFile f { s.files f with ref := (s.files f).ref - 1 }).set p
        ⟨o, .fork c (i.val + 1)⟩).setFile f (s.files f)).set c
        ⟨update oc i (some f), .embryo⟩ := by
    simp only [System.goto, System.set, System.setFile, Proc.setFd, hxc, hx,
      update_of_ne hne.symm, update_idem, update_eq_self]
    rw [update_comm hne]
  have hslots := fun f' => pointing_update oc i (some f) f'
  rw [hnone i (Nat.le_refl _)] at hslots
  rw [heq]
  refine h₁.refile hxc₁ (fun q hq => ?_) (fun q j hq => ⟨rfl, fun k hk => ?_⟩) (adopts_of_none rfl)
    trivial ?_ (fun f' hf' => ?_) (h.type f) (by simp [Pc.raw]) (fun _ _ => ?_) fun _ => rfl
  · by_cases hqp : q = p
    · subst hqp
      simp [System.set, Pc.raw]
    · have hnot := h.not_raw (p := p) (f := f) (.inr (by rw [hx]; omega)) q hqp
      simpa [System.set, System.setFile, hqp] using hnot
  · by_cases hqp : q = p
    · subst hqp
      simp only [System.set, update_self, Pc.child, Option.some.injEq, Prod.mk.injEq,
        true_and] at hq
      have hki : k ≠ i := by
        rintro rfl
        omega
      change update oc i (some f) k = none
      rw [update_of_ne hki]
      exact hnone k (by omega)
    · simp only [System.set, System.setFile, update_of_ne hqp] at hq
      exact absurd hq (h.alone p q (Ne.symm hqp) c i j hchild)
  · have := hslots f
    rw [held_eq oc rfl, held_eq _ rfl]
    simp only [System.set, System.setFile, update_self, Pc.inHand, List.count_nil]
    simp at this
    omega
  · have := hslots f'
    rw [held_eq oc rfl, held_eq _ rfl]
    simp only [Option.some.injEq, hf'.symm, reduceCtorEq, if_false] at this
    exact this
  · simp [System.set, System.setFile, File.isEnd]

theorem Sound.forkDone {i : ℕ} (hx : s.procs p = ⟨o, .fork c i⟩) :
    Sound ((s.goto c .user).goto p .user) := by
  have hne := h.child_ne hx rfl
  have hchild : (s.procs p).pc.child = some (c, i) := by simp [hx, Pc.child]
  have hcomm : (s.goto c .user).goto p .user = (s.goto p .user).goto c .user := by
    simp only [System.goto, System.set, update_of_ne hne, update_of_ne hne.symm]
    rw [update_comm hne]
  have h₁ : Sound (s.goto p .user) := by
    rw [System.goto_eq hx]
    refine h.move hx (h.parents (by simp [hx]) _) (adopts_of_none rfl) trivial (fun f => ?_)
      (List.nil_subset _) (fun _ _ => rfl) fun _ => rfl
    rw [held_eq o rfl, held_eq o rfl]
    rfl
  obtain ⟨oc, pcc, hxc⟩ : ∃ o pc, s.procs c = ⟨o, pc⟩ := ⟨_, _, rfl⟩
  obtain rfl : pcc = .embryo := by simpa [hxc] using (h.child p c i hchild).1
  have hxc₁ : (s.goto p .user).procs c = ⟨oc, .embryo⟩ := by
    simp only [System.goto, System.set, update_of_ne hne, hxc]
  rw [hcomm, System.goto_eq hxc₁]
  refine h₁.move hxc₁ (fun q j hq => ?_) (adopts_of_none rfl) trivial (fun f => ?_)
    (List.nil_subset _) (fun _ _ => rfl) fun _ => rfl
  · by_cases hqp : q = p
    · subst hqp
      simp [System.goto, System.set, Pc.child] at hq
    · simp only [System.goto, System.set, update_of_ne hqp] at hq
      exact absurd hq (h.alone p q (Ne.symm hqp) c i j hchild)
  · rw [held_eq oc rfl, held_eq oc rfl]
    rfl

theorem Sound.openSet {w : Bool} (hx : s.procs p = ⟨o, .openSet f w⟩) :
    Sound ((s.setFile f { s.files f with type := .inode, writable := w }).goto p .user) := by
  have hmem : f ∈ (s.procs p).pc.raw := by simp [hx, Pc.raw]
  obtain ⟨htype, href⟩ := h.raw p f hmem
  have hpos := held_pos_of_raw (h.loc p) hmem
  have hgoto := System.goto_eq
    (s := s.setFile f { s.files f with type := .inode, writable := w }) hx .user
  have hheld : ∀ f', Proc.held (⟨o, .user⟩ : Proc n) f' =
      Proc.held (⟨o, .openSet f w⟩ : Proc n) f' := by
    intro f'
    rw [held_eq o rfl, held_eq o rfl]
    rfl
  rw [hx] at hpos
  rw [hgoto]
  refine h.refile hx (h.not_raw (.inr (by simpa [hx] using hpos))) (h.parents (by simp [hx]) _)
    (adopts_of_none rfl) trivial ?_
    (fun f' _ => hheld f') (fun h0 => ?_) ?_ (fun g w' => ?_) fun _ => rfl
  · rw [hheld f]
  · simp [href] at h0
  · simp [Pc.raw]
  · simp [File.isEnd, htype, Pc.closing]

theorem Sound.step (p : Fin n) (kalloc : Bool) : Sound (s.step p kalloc) := by
  obtain ⟨o, pc, hx⟩ : ∃ o pc, s.procs p = ⟨o, pc⟩ := ⟨_, _, rfl⟩
  have hlocal := h.loc p
  rw [hx] at hlocal
  unfold System.step
  simp only [hx]
  cases pc with
  | unused => exact h
  | embryo => exact h
  | zombie => exact h
  | user => exact h
  | openFile w =>
    dsimp only
    split
    · exact h.goto hx rfl rfl trivial rfl (List.nil_subset _)
    · next f hf =>
      exact h.filealloc hx hf rfl rfl trivial rfl (List.Subset.refl _)
  | openFd f w =>
    dsimp only
    split
    · exact h.goto hx rfl rfl trivial rfl (List.nil_subset _)
    · next fd hfd =>
      refine h.setFd hx rfl rfl ⟨fd, update_self ..⟩
        (fun f' => ?_) (List.Subset.refl _)
      rw [show o fd = none from fdalloc_none hfd]
      exact Nat.add_comm _ _
  | openSet f w => exact h.openSet hx
  | dup f src fd =>
    obtain ⟨hne, hsrc, hfd⟩ : src ≠ fd ∧ o src = some f ∧ o fd = some f := hlocal
    have hpos : 0 < pointing (update o fd none) f :=
      pointing_pos ((update_of_ne hne none o).trans hsrc)
    refine h.filedup hx (adopts_of_none rfl) (by simp) trivial ?_ (fun f' => ?_) rfl
      (fun _ _ => rfl) fun _ => rfl
    · rw [held_skip o rfl]
      omega
    · have hslots := pointing_update o fd none f'
      rw [held_eq o rfl, held_skip o rfl]
      simp only [hfd, Pc.inHand, List.count_nil] at hslots ⊢
      grind
  | pipe0 =>
    dsimp only
    split
    · exact h.goto hx rfl rfl trivial rfl (List.nil_subset _)
    · next f hf =>
      exact h.filealloc hx hf rfl rfl trivial rfl (List.Subset.refl _)
  | pipe1 f0 =>
    dsimp only
    split
    · exact h.goto hx rfl rfl trivial rfl (List.nil_subset _)
    · next f hf =>
      exact h.filealloc hx hf rfl rfl trivial rfl (List.Subset.refl _)
  | pipePage f0 f1 =>
    dsimp only
    split_ifs
    · exact h.initPipe hx
    · exact h.goto hx rfl rfl trivial rfl (List.nil_subset _)
  | pipeFd0 f0 f1 =>
    dsimp only
    split
    · exact h.goto hx rfl rfl trivial rfl (List.nil_subset _)
    · next fd hfd =>
      refine h.setFd hx rfl rfl (update_self ..) (fun f' => ?_)
        (List.nil_subset _)
      rw [show o fd = none from fdalloc_none hfd]
      simp [Pc.inHand, List.count_cons]
  | pipeFd1 f0 f1 fd0 =>
    dsimp only
    split
    · refine h.setFd hx rfl rfl trivial (fun f' => ?_) (List.nil_subset _)
      rw [show o fd0 = some f0 from hlocal]
      simp [Pc.inHand, Next.inHand, List.count_cons]
    · next fd hfd =>
      refine h.setFd hx rfl rfl trivial (fun f' => ?_) (List.nil_subset _)
      rw [show o fd = none from fdalloc_none hfd]
      simp [Pc.inHand]
  | close f next => exact h.fileclose hx
  | pipeclose g w next => exact h.pipeclose hx
  | kfree g next => exact h.kfree hx
  | exit i =>
    dsimp only
    split_ifs with hi
    · split
      · next hnone =>
        refine h.goto hx rfl rfl (fun j hj => ?_) rfl (List.nil_subset _)
        obtain hj | hj := Nat.lt_succ_iff_lt_or_eq.mp hj
        · exact hlocal j hj
        · rw [show j = ⟨i, hi⟩ from Fin.ext hj]
          exact hnone
      · next f hf =>
        rw [System.goto_eq hx]
        refine h.move hx (h.parents (by simp [hx]) _) (adopts_of_none rfl) (fun j hj => hlocal j hj)
          (fun f' => ?_) (List.nil_subset _) (fun _ _ => rfl) fun _ => rfl
        rw [held_exit hf, held_eq o rfl]
        rfl
    · exact h.goto hx rfl rfl (fun j => hlocal j (by omega)) rfl
        (List.nil_subset _)
  | exitClear fd =>
    refine h.move hx (h.parents (by simp [hx]) _) (adopts_of_none rfl) (fun j hj => ?_)
      (fun f' => ?_) (List.nil_subset _) (fun _ _ => rfl) fun _ => rfl
    · change update o fd none j = none
      by_cases hjfd : j = fd
      · rw [hjfd, update_self]
      · rw [update_of_ne hjfd]
        exact hlocal j (lt_of_le_of_ne (Nat.le_of_lt_succ hj) hjfd)
    · rw [held_skip o rfl]
      exact held_eq _ rfl f'
  | fork c i =>
    dsimp only
    split_ifs with hi
    · split
      · rw [System.goto_eq hx]
        refine h.move hx (h.parents (by simp [hx]) _) (h.adopts hx rfl rfl (Nat.le_succ i)) trivial
          (fun f' => ?_) (List.nil_subset _) (fun _ _ => rfl) fun _ => rfl
        rw [held_eq o rfl, held_eq o rfl]
        rfl
      · next f hf =>
        have hpos := pointing_pos hf
        refine h.filedup hx (h.adopts hx rfl rfl (Nat.le_refl i)) (by simp) hf ?_
          (fun f' => ?_) rfl (fun _ _ => rfl) fun _ => rfl
        · rw [held_eq o rfl]
          omega
        · rw [held_eq o rfl, held_eq o rfl]
          change _ + [f].count f' = _ + 0 + _
          rw [List.count_singleton]
          simp only [beq_iff_eq]
          rfl
    · exact h.forkDone hx
  | forkGive c i f => exact h.forkGive hx

end Sound

theorem argfd_ofile {x : Proc n} {fd : Word} {r : Fin NOFILE × Fin NFILE}
    (h : argfd x fd = some r) : x.ofile r.1 = some r.2 := by
  unfold argfd at h
  split_ifs at h with hfd
  obtain ⟨f, hf, rfl⟩ := Option.map_eq_some_iff.mp h
  exact hf

theorem Sound.dup (h : Sound s) (hx : s.procs p = ⟨o, .user⟩) {w : Word} {src : Fin NOFILE}
    (harg : argfd (s.procs p) w = some (src, f)) (hfd : fdalloc (s.procs p) = some fd) :
    Sound (s.set p ((s.procs p).setFd fd (some f) (.dup f src fd))) := by
  have hsrc : o src = some f := by simpa [hx] using argfd_ofile harg
  have hfree : o fd = none := by simpa [hx] using fdalloc_none hfd
  have hne : src ≠ fd := by
    rintro rfl
    simp [hsrc] at hfree
  refine h.move hx (h.parents (by simp [hx]) _) (adopts_of_none rfl) ?_ (fun f' => ?_)
    (List.nil_subset _) (fun _ _ => rfl) fun _ => rfl
  · refine ⟨hne, ?_, update_self ..⟩
    change update (s.procs p).ofile fd (some f) src = some f
    rw [update_of_ne hne, hx]
    exact hsrc
  · -- the new descriptor does not count before `filedup`
    rw [Proc.setFd, held_skip _ rfl, held_eq o rfl, update_idem, hx]
    change pointing (update o fd none) f' + 0 = _
    rw [← hfree, update_eq_self]
    rfl

theorem Sound.fork (h : Sound s) (hx : s.procs p = ⟨o, .user⟩) (hc : (s.procs c).pc = .unused) :
    Sound ((s.goto c .embryo).goto p (.fork c 0)) := by
  have hne : c ≠ p := by
    rintro rfl
    simp [hx] at hc
  obtain ⟨oc, pcc, hxc⟩ : ∃ o pc, s.procs c = ⟨o, pc⟩ := ⟨_, _, rfl⟩
  obtain rfl : pcc = .unused := by simpa [hxc] using hc
  have hempty : ∀ j, oc j = none := by simpa [hxc, Proc.Local] using h.loc c
  have h₁ : Sound (s.goto c .embryo) := by
    rw [System.goto_eq hxc]
    refine h.move hxc (h.parents (by simp [hxc]) _) (adopts_of_none rfl) trivial (fun f => ?_)
      (List.nil_subset _) (fun _ _ => rfl) fun _ => rfl
    rw [held_eq oc rfl, held_eq oc rfl]
    rfl
  have hxp : (s.goto c .embryo).procs p = ⟨o, .user⟩ := by
    simp only [System.goto, System.set, update_of_ne hne.symm, hx]
  have hxc₁ : (s.goto c .embryo).procs c = ⟨oc, .embryo⟩ := by
    simp only [System.goto, System.set, update_self, hxc]
  rw [System.goto_eq hxp]
  refine h₁.move hxp (h₁.parents (by simp [hxp]) _) (fun c' i hc' => ?_) trivial (fun f => ?_)
    (List.nil_subset _) (fun _ _ => rfl) fun _ => rfl
  · obtain ⟨rfl, rfl⟩ := Prod.mk.inj (Option.some.inj hc')
    refine ⟨hne, by rw [hxc₁], fun j _ => by rw [hxc₁]; exact hempty j, fun q _ i' hq => ?_⟩
    by_cases hqc : q = c
    · subst hqc
      simp [hxc₁, Pc.child] at hq
    · simp only [System.goto, System.set, update_of_ne hqc] at hq
      have := (h.child q c i' hq).1
      simp [hxc] at this
  · rw [held_eq o rfl, held_eq o rfl]
    rfl

theorem Sound.enter (h : Sound s) (a : Action n)
    (hx : s.procs (System.caller a) = ⟨o, .user⟩) : Sound (s.enter a) := by
  cases a with
  | «open» p found w =>
    simp only [System.enter]
    split_ifs
    · exact h.goto hx rfl rfl trivial rfl (List.nil_subset _)
    · exact h
  | dup p fd =>
    simp only [System.enter]
    split
    · exact h
    · next src f harg =>
      split
      · exact h
      · next fd' hfd =>
        exact h.dup hx harg hfd
  | pipe p => exact h.goto hx rfl rfl trivial rfl (List.nil_subset _)
  | fork p memory =>
    simp only [System.enter]
    split
    · exact h
    · next c hc =>
      split_ifs
      · exact h.fork hx (by simpa using List.find?_some hc)
      · exact h
  | close p fd =>
    simp only [System.caller] at hx
    simp only [System.enter]
    split
    · exact h
    · next fd' f harg =>
      have hslot : o fd' = some f := by simpa [hx] using argfd_ofile harg
      rw [hx]
      refine h.setFd hx rfl rfl trivial (fun f' => ?_) (List.nil_subset _)
      rw [hslot]
      exact Nat.add_comm _ _
  | exit p =>
    exact h.goto hx rfl rfl (fun j hj => absurd hj (Nat.not_lt_zero _)) rfl
      (List.nil_subset _)
  | wait p => exact h
  | step p kalloc => exact h

theorem Sound.act (h : Sound s) (a : Action n) : Sound (s.act a) := by
  obtain ⟨o, pc, hx⟩ : ∃ o pc, s.procs (System.caller a) = ⟨o, pc⟩ := ⟨_, _, rfl⟩
  have hcall : Sound (if (s.procs (System.caller a)).pc = .user then s.enter a else s) := by
    split_ifs with huser
    · rw [hx] at huser
      exact h.enter a (hx.trans (by rw [show pc = .user from huser]))
    · exact h
  unfold System.act
  rw [h.panic]
  cases a with
  | step p kalloc => exact h.step p kalloc
  | wait p =>
    dsimp only [System.caller] at hx
    simp only [Bool.false_eq_true, if_false]
    split_ifs with hz
    · obtain rfl : pc = .zombie := by simpa [hx] using hz
      have hlocal := h.loc p
      rw [hx] at hlocal
      exact h.goto hx rfl rfl hlocal rfl (List.nil_subset _)
    · exact h
  | _ => exact hcall

theorem initial_pc (init p : Fin n) : ((System.initial init).procs p).pc = .user ∨
    ((System.initial init).procs p).pc = .unused := by
  simp only [System.initial]
  split_ifs
  · exact .inl rfl
  · exact .inr rfl

theorem Sound.initial (init : Fin n) : Sound (.initial init) := by
  have hempty : pointing (fun _ => none) = fun _ => 0 := by
    funext f
    simp [pointing]
  have hchild : ∀ p, ((System.initial init).procs p).pc.child = none := by
    intro p
    obtain hp | hp := initial_pc init p <;> rw [hp] <;> rfl
  constructor
  · intro f
    symm
    apply Finset.sum_eq_zero
    intro p _
    have hskip : ((System.initial init).procs p).pc.skip = none := by
      obtain hp | hp := initial_pc init p <;> rw [hp] <;> rfl
    have hhand : ((System.initial init).procs p).pc.inHand = [] := by
      obtain hp | hp := initial_pc init p <;> rw [hp] <;> rfl
    simp only [Proc.held, Proc.counted, hskip, hhand, List.count_nil, Nat.add_zero]
    exact congrFun hempty f
  · exact fun _ _ => rfl
  · intro p f hf
    obtain hp | hp := initial_pc init p <;> simp [hp, Pc.raw] at hf
  · intro g w
    have hclosing : ∀ p, ((System.initial init).procs p).pc.closing g w = 0 := by
      intro p
      obtain hp | hp := initial_pc init p <;> rw [hp] <;> rfl
    simpa [System.initial, File.isEnd] using hclosing
  · exact fun g hg => absurd hg (Nat.not_lt_zero g)
  · intro g
    have hfreeing : ∀ p, ((System.initial init).procs p).pc.freeing g = 0 := by
      intro p
      obtain hp | hp := initial_pc init p <;> rw [hp] <;> rfl
    simpa [System.initial, bothClosed] using hfreeing
  · intro p
    obtain hp | hp := initial_pc init p <;> simp only [Proc.Local, hp]
    exact fun _ => rfl
  · intro p c i hc
    simp [hchild] at hc
  · intro p q _ c i j hc
    simp [hchild] at hc
  · rfl

theorem Sound.accounted (h : Sound s) : Accounted s := by
  constructor
  · exact h.ref
  · intro f hf
    rw [h.ref f]
    apply Finset.sum_congr rfl
    intro p _
    obtain ⟨hskip, hhand⟩ := hf p
    simp only [Proc.held, Proc.counted, hskip, List.count_eq_zero.mpr hhand, Nat.add_zero]
  · exact h.type
  · apply List.nodup_iff_count_le_one.mpr
    intro ⟨g, w⟩
    have hends := h.ends g w
    split_ifs at hends <;> omega
  · intro g hg w
    have hends := h.ends g w
    rw [if_pos hg] at hends
    have hsums : (∑ f, (s.files f).isEnd g w + ∑ p, (s.procs p).pc.closing g w = 0) ↔
        (∀ f, (s.files f).isEnd g w = 0) ∧ ∀ p, (s.procs p).pc.closing g w = 0 := by
      simp [Finset.sum_eq_zero_iff]
    rw [← hsums, ← List.count_pos_iff]
    omega
  · apply List.nodup_iff_count_le_one.mpr
    intro g
    have hpages := h.pages g
    split_ifs at hpages <;> omega
  · intro g
    have hpages := h.pages g
    have hsum : (∑ p, (s.procs p).pc.freeing g = 0) ↔ ∀ p, (s.procs p).pc.freeing g = 0 := by
      simp [Finset.sum_eq_zero_iff]
    rw [← hsum, ← List.count_pos_iff]
    split_ifs at hpages with hboth
    · simp only [hboth, true_and]
      omega
    · simp only [hboth, false_and, iff_false]
      omega
  · exact h.panic

end Steps

end Accounting

theorem always_accounted {n : ℕ} (init : Fin n) (acts : List (Action n)) :
    Always System.act Accounted (.initial init) acts := by
  intro pre _
  exact (run_invariant (Sound.initial init) fun _ a h => Sound.act h a).accounted

end Xv6Prng.OpenFiles
