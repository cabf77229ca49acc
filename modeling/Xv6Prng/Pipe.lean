import Xv6Prng.Library.ByteWords
import Xv6Prng.Library.WrapRing
import Xv6Prng.Library.Runs

/-!
# Pipes

`pipewrite`, `piperead` and `pipeclose` as any number of processes run them on one pipe. A
process that holds `p->lock` takes one step for each turn of a loop, one for each entry that
`wakeupselect` looks at and one for each `wakeup`. `sleep` gives up the lock and waits in one
step; a process that is woken takes the lock again and goes back to the head of its loop.

The lists of waiting selectors and the locks of the selectors belong to `select.c`, and the
processes that select change them at will.
-/

namespace Xv6Prng.Ipc

open WrapRing Runs Function

abbrev NSELPROC : ℕ := 16
abbrev PIPESIZE : ℕ := 512

section Code

variable {ι : Type} [DecidableEq ι]

/-- `struct selproc`: an entry points to the `selid` of a process, and its lock is that
process's `selectlock`. -/
structure Selproc (ι : Type) where
  sel : Fin NSELPROC → Option ι
  lk : Fin NSELPROC → Option ι
  selcount : ℤ

def initselproc (s : Selproc ι) : Selproc ι := ⟨fun _ => none, s.lk, 0⟩

def clearEntry (p : ι) (s : Selproc ι) (i : Fin NSELPROC) : Selproc ι :=
  if s.sel i = some p then
    { s with sel := Function.update s.sel i none, selcount := s.selcount - 1 }
  else s

def clearselid (s : Selproc ι) (p : ι) : Selproc ι := (List.finRange NSELPROC).foldl (clearEntry p) s

def addselid (s : Selproc ι) (p : ι) : Selproc ι :=
  match (List.finRange NSELPROC).find? fun i => s.sel i = none with
  | some i =>
    ⟨Function.update s.sel i (some p), Function.update s.lk i (some p), s.selcount + 1⟩
  | none => s

/-- Where `wakeupselect` is: at the test of an entry, waiting for its lock, about to call
`wakeup`, about to call `release`. -/
inductive WakePc (ι : Type)
  | test (i : ℕ)
  | acquire (i : Fin NSELPROC) (lk : ι)
  | wakeup (i : Fin NSELPROC)
  | release (i : Fin NSELPROC)

/-- The end of a pipe that somebody waits at: `&p->nread` or `&p->nwrite`. -/
inductive Side
  | read
  | write
  deriving DecidableEq

inductive Event (ι : Type)
  | quiet
  | wakeup (side : Side)
  | wakeupSelid (p : Option ι)
  | store (b : Byte)
  | take (b : Byte)
  | wrote (addr : ℕ → Byte) (n r : ℤ)
  | didRead (got : List Byte) (r : ℤ)
  | closed (freed : Bool)
  | panic (msg : String)

/-- A step of `wakeupselect`: where it goes on, or `none` at its end. -/
def wakeupselect (me : ι) (L : Selproc ι) (locks : ι → Option ι) :
    WakePc ι → Option (WakePc ι) × (ι → Option ι) × Event ι
  | .test i =>
    if h : i < NSELPROC then
      if (L.sel ⟨i, h⟩).isSome then
        match L.lk ⟨i, h⟩ with
        | some q => (some (.acquire ⟨i, h⟩ q), locks, .quiet)
        | none => (none, locks, .panic "acquire")
      else (some (.test (i + 1)), locks, .quiet)
    else (none, locks, .quiet)
  | .acquire i q =>
    if locks q = none then (some (.wakeup i), Function.update locks q (some me), .quiet)
    else (some (.acquire i q), locks, .quiet)
  | .wakeup i => (some (.release i), locks, .wakeupSelid (L.sel i))
  | .release i =>
    match L.lk i with
    | some q =>
      if locks q = some me then (some (.test (i.val + 1)), Function.update locks q none, .quiet)
      else (none, locks, .panic "release")
    | none => (none, locks, .panic "release")

structure Pipe (ι : Type) where
  lock : Option ι
  data : Fin PIPESIZE → Byte
  nread : Word
  nwrite : Word
  readopen : Bool
  writeopen : Bool
  selprocread : Selproc ι
  selprocwrite : Selproc ι

namespace Pipe

variable (P : Pipe ι)

def fresh (data : Fin PIPESIZE → Byte) (sr sw : Selproc ι) : Pipe ι :=
  ⟨none, data, 0, 0, true, true, initselproc sr, initselproc sw⟩

def list : Side → Selproc ι
  | .read => P.selprocread
  | .write => P.selprocwrite
def full : Prop := P.nwrite = P.nread + BitVec.ofNat 32 PIPESIZE

def empty : Prop := P.nread = P.nwrite

instance : Decidable P.full := inferInstanceAs (Decidable (_ = _))

instance : Decidable P.empty := inferInstanceAs (Decidable (_ = _))

def acquire (p : ι) : Pipe ι := { P with lock := some p }

def release : Pipe ι := { P with lock := none }

def push (b : Byte) : Pipe ι :=
  { P with data := Function.update P.data (cell PIPESIZE P.nwrite) b, nwrite := P.nwrite + 1 }

def pop : Byte × Pipe ι := (P.data (cell PIPESIZE P.nread), { P with nread := P.nread + 1 })

def shut (writable : Bool) : Pipe ι :=
  if writable then { P with writeopen := false } else { P with readopen := false }

end Pipe

inductive Call
  | write (addr : ℕ → Byte) (n : ℤ) (i : ℕ)
  | read (n : ℤ) (got : List Byte)
  | close (writable : Bool)

def Call.wakes : Call → Side
  | .write _ _ _ => .read
  | .read _ _ => .write
  | .close writable => if writable then .read else .write

def Call.waits : Call → Option Side
  | .write _ _ _ => some .write
  | .read _ _ => some .read
  | .close _ => none

/-- `enter` is before `acquire(&p->lock)`, `copy` the second loop of `piperead`, `leave` what
follows `wakeup`. -/
inductive Stage (ι : Type)
  | enter
  | body
  | copy
  | wakeupselect (w : WakePc ι)
  | wakeup
  | leave
  | asleep

inductive Pc (ι : Type)
  | idle
  | call (c : Call) (stage : Stage ι)

structure Turn (ι : Type) where
  pipe : Pipe ι
  locks : ι → Option ι
  pc : Pc ι
  event : Event ι

section Turns

variable (killed : Bool) (P : Pipe ι) (locks : ι → Option ι)

def pipewriteTurn (addr : ℕ → Byte) (n : ℤ) (i : ℕ) : Turn ι :=
  if (i : ℤ) < n then
    if P.full then
      if P.readopen = false ∨ killed = true then ⟨P.release, locks, .idle, .wrote addr n (-1)⟩
      else ⟨P, locks, .call (.write addr n i) (.wakeupselect (.test 0)), .quiet⟩
    else ⟨P.push (addr i), locks, .call (.write addr n (i + 1)) .body, .store (addr i)⟩
  else ⟨P, locks, .call (.write addr n i) (.wakeupselect (.test 0)), .quiet⟩

def pipereadTurn (n : ℤ) (got : List Byte) : Turn ι :=
  if P.empty ∧ P.writeopen = true then
    if killed = true then ⟨P.release, locks, .idle, .didRead got (-1)⟩
    else ⟨P.release, locks, .call (.read n got) .asleep, .quiet⟩
  else ⟨P, locks, .call (.read n got) .copy, .quiet⟩

def bodyTurn : Call → Turn ι
  | .write addr n i => pipewriteTurn killed P locks addr n i
  | .read n got => pipereadTurn killed P locks n got
  | .close writable =>
    ⟨P.shut writable, locks, .call (.close writable) (.wakeupselect (.test 0)), .quiet⟩

def copyTurn (c : Call) : Turn ι :=
  match c with
  | .read n got =>
    if (got.length : ℤ) < n ∧ ¬ P.empty then
      ⟨P.pop.2, locks, .call (.read n (got ++ [P.pop.1])) .copy, .take P.pop.1⟩
    else ⟨P, locks, .call (.read n got) (.wakeupselect (.test 0)), .quiet⟩
  | c => ⟨P, locks, .call c .copy, .quiet⟩

def leaveTurn : Call → Turn ι
  | .write addr n i =>
    if (i : ℤ) < n then ⟨P.release, locks, .call (.write addr n i) .asleep, .quiet⟩
    else ⟨P.release, locks, .idle, .wrote addr n n⟩
  | .read _ got => ⟨P.release, locks, .idle, .didRead got got.length⟩
  | .close _ => ⟨P.release, locks, .idle, .closed (!P.readopen && !P.writeopen)⟩

def wakeupselectTurn (me : ι) (c : Call) (w : WakePc ι) : Turn ι :=
  match wakeupselect me (P.list c.wakes) locks w with
  | (some w, locks, e) => ⟨P, locks, .call c (.wakeupselect w), e⟩
  | (none, locks, e) => ⟨P, locks, .call c .wakeup, e⟩

def turn (me : ι) (c : Call) : Stage ι → Turn ι
  | .enter =>
    if P.lock = none then ⟨P.acquire me, locks, .call c .body, .quiet⟩
    else ⟨P, locks, .call c .enter, .quiet⟩
  | .body => bodyTurn killed P locks c
  | .copy => copyTurn P locks c
  | .wakeupselect w => wakeupselectTurn P locks me c w
  | .wakeup => ⟨P, locks, .call c .leave, .wakeup c.wakes⟩
  | .leave => leaveTurn P locks c
  | .asleep => ⟨P, locks, .call c .asleep, .quiet⟩

end Turns

def Pc.wakeup (side : Side) : Pc ι → Pc ι
  | .call c .asleep => if c.waits = some side then .call c .enter else .call c .asleep
  | pc => pc

def Pc.rouse : Pc ι → Pc ι
  | .call c .asleep => .call c .enter
  | pc => pc

end Code

/-- A write that has returned: what it was asked to write, what it returned, and how many bytes
had been stored in the pipe when it began and when it returned. -/
structure Write (n : ℕ) where
  proc : Fin n
  addr : ℕ → Byte
  count : ℤ
  ret : ℤ
  base : ℕ
  stop : ℕ

/-- What has happened: the bytes stored, with who stored them; the bytes taken; the bytes returned
by reads; the length of `stored` when a process began its call; the writes that have returned. -/
structure History (n : ℕ) where
  stored : List (Fin n × Byte)
  taken : List Byte
  returned : List Byte
  base : Fin n → ℕ
  writes : List (Write n)

def History.bytes {n : ℕ} (H : History n) : List Byte := H.stored.map Prod.snd

structure System (n : ℕ) where
  pipe : Pipe (Fin n)
  locks : Fin n → Option (Fin n)
  procs : Fin n → Pc (Fin n)
  killed : Fin n → Bool
  panic : Option String
  history : History n

namespace System

variable {n : ℕ} (s : System n) (p : Fin n)

def initial (P : Pipe (Fin n)) (locks : Fin n → Option (Fin n)) : System n where
  pipe := .fresh P.data P.selprocread P.selprocwrite
  locks := locks
  procs _ := .idle
  killed _ := false
  panic := none
  history := ⟨[], [], [], fun _ => 0, []⟩

def record : Event (Fin n) → System n
  | .quiet | .wakeupSelid _ | .closed _ => s
  | .wakeup side => { s with procs := fun q => (s.procs q).wakeup side }
  | .store b => { s with history := { s.history with stored := s.history.stored ++ [(p, b)] } }
  | .take b => { s with history := { s.history with taken := s.history.taken ++ [b] } }
  | .wrote addr n r =>
    { s with history := { s.history with writes := s.history.writes ++
      [⟨p, addr, n, r, s.history.base p, s.history.stored.length⟩] } }
  | .didRead got _ =>
    { s with history := { s.history with returned := s.history.returned ++ got } }
  | .panic msg => { s with panic := some msg }

def take (t : Turn (Fin n)) : System n :=
  ({ s with pipe := t.pipe, locks := t.locks, procs := Function.update s.procs p t.pc }).record p
    t.event

def stepProc : System n :=
  match s.procs p with
  | .idle => s
  | .call c stage => s.take p (turn (s.killed p) s.pipe s.locks p c stage)

def start (c : Call) : System n :=
  { s with
    procs := Function.update s.procs p (.call c .enter)
    history := { s.history with base := Function.update s.history.base p s.history.stored.length } }

end System

inductive Action (n : ℕ)
  | pipewrite (p : Fin n) (addr : ℕ → Byte) (count : ℤ)
  | piperead (p : Fin n) (count : ℤ)
  | pipeclose (p : Fin n) (writable : Bool)
  | step (p : Fin n)
  | kill (p : Fin n)
  | select (sr sw : Selproc (Fin n)) (locks : Fin n → Option (Fin n))

def System.call {n : ℕ} (s : System n) (p : Fin n) (c : Call) : System n :=
  match s.procs p with
  | .idle => s.start p c
  | .call _ _ => s

/-- `select` is what processes in `sys_select` do to the lists and to their locks. -/
def System.act {n : ℕ} (s : System n) : Action n → System n
  | .pipewrite p addr count => s.call p (.write addr count 0)
  | .piperead p count => s.call p (.read count [])
  | .pipeclose p writable => s.call p (.close writable)
  | .step p => s.stepProc p
  | .kill p =>
    { s with
      killed := Function.update s.killed p true
      procs := Function.update s.procs p (s.procs p).rouse }
  | .select sr sw locks =>
    { s with pipe := { s.pipe with selprocread := sr, selprocwrite := sw }, locks := locks }

def step {n : ℕ} (s : System n) (a : Action n) : System n := if s.panic.isSome then s else s.act a

def bytesOf {n : ℕ} (p : Fin n) (l : List (Fin n × Byte)) : List Byte :=
  (l.filter fun x => x.1 = p).map Prod.snd

def Write.Complete {n : ℕ} (w : Write n) (stored : List (Fin n × Byte)) : Prop :=
  w.ret = w.count →
    bytesOf w.proc ((stored.take w.stop).drop w.base) = (List.range w.count.toNat).map w.addr

structure Fifo {n : ℕ} (s : System n) : Prop where
  prefix_stored : s.history.returned <+: s.history.bytes
  count : (s.pipe.nwrite - s.pipe.nread).toNat ≤ PIPESIZE
  writes : ∀ w ∈ s.history.writes, w.Complete s.history.stored

namespace Pc

variable {ι : Type}

def inside : Pc ι → Prop
  | .idle | .call _ .enter | .call _ .asleep => False
  | .call _ _ => True

def got : Pc ι → List Byte
  | .call (.read _ got) _ => got
  | _ => []

def fresh : Pc ι → Prop
  | .call (.read _ got) .enter | .call (.read _ got) .body | .call (.read _ got) .asleep => got = []
  | _ => True

def done : Pc ι → List Byte
  | .call (.write addr _ i) _ => (List.range i).map addr
  | _ => []

def inRange : Pc ι → Prop
  | .call (.write _ n i) _ => i ≤ n.toNat
  | _ => True

theorem got_of_fresh {pc : Pc ι} (h : pc.fresh) (hout : ¬ pc.inside) : pc.got = [] := by
  cases pc with
  | idle => rfl
  | call c stage =>
    cases c with
    | read n got =>
      cases stage with
      | enter => exact h
      | asleep => exact h
      | _ => exact absurd trivial hout
    | _ => rfl

end Pc

variable {c : Call}

section Sound

variable {n : ℕ}

structure Sound (P : Pipe (Fin n)) (procs : Fin n → Pc (Fin n)) (H : History n) : Prop where
  lock : ∀ p, (procs p).inside ↔ P.lock = some p
  fresh : ∀ p, (procs p).fresh
  carries : Carries P.data P.nread P.nwrite H.bytes H.taken
  idle_taken : P.lock = none → H.taken = H.returned
  held_taken : ∀ p, P.lock = some p → H.taken = H.returned ++ (procs p).got
  base : ∀ p, H.base p ≤ H.stored.length
  mine : ∀ p, procs p ≠ .idle → bytesOf p (H.stored.drop (H.base p)) = (procs p).done
  inRange : ∀ p, (procs p).inRange
  stop : ∀ w ∈ H.writes, w.stop ≤ H.stored.length
  writes : ∀ w ∈ H.writes, w.Complete H.stored

variable {P P' : Pipe (Fin n)} {procs procs' : Fin n → Pc (Fin n)} {H : History n} {p : Fin n}

structure SamePoint (pc pc' : Pc (Fin n)) : Prop where
  inside : pc'.inside ↔ pc.inside
  got : pc'.got = pc.got
  fresh : pc.fresh → pc'.fresh
  done : pc'.done = pc.done
  inRange : pc.inRange → pc'.inRange
  idle : pc = .idle → pc' = .idle

theorem SamePoint.refl (pc : Pc (Fin n)) : SamePoint pc pc :=
  ⟨Iff.rfl, rfl, id, rfl, id, id⟩

structure SameRing (P P' : Pipe (Fin n)) : Prop where
  lock : P'.lock = P.lock
  data : P'.data = P.data
  nread : P'.nread = P.nread
  nwrite : P'.nwrite = P.nwrite

theorem Sound.congr (h : Sound P procs H) (hP : SameRing P P')
    (hprocs : ∀ q, SamePoint (procs q) (procs' q)) : Sound P' procs' H where
  lock q := by rw [(hprocs q).inside, hP.lock, h.lock q]
  fresh q := (hprocs q).fresh (h.fresh q)
  carries := by
    rw [hP.data, hP.nread, hP.nwrite]
    exact h.carries
  idle_taken hfree := h.idle_taken (hP.lock ▸ hfree)
  held_taken q hq := by
    rw [(hprocs q).got]
    exact h.held_taken q (hP.lock ▸ hq)
  __ := h
  mine q hq := by
    rw [(hprocs q).done]
    exact h.mine q fun hidle => hq ((hprocs q).idle hidle)
  inRange q := (hprocs q).inRange (h.inRange q)

theorem samePoint_update {pc : Pc (Fin n)} (h : SamePoint (procs p) pc) (q : Fin n) :
    SamePoint (procs q) (update procs p pc q) := by
  by_cases hq : q = p
  · subst hq
    simpa using h
  · simpa [hq] using SamePoint.refl (procs q)

variable {stage : Stage (Fin n)}

theorem samePoint_stage (c : Call) {stage' : Stage (Fin n)}
    (hin : (Pc.call c stage').inside ↔ (Pc.call c stage).inside)
    (hfresh : (Pc.call c stage).fresh → (Pc.call c stage').fresh) :
    SamePoint (.call c stage) (.call c stage') := by
  refine ⟨hin, ?_, hfresh, ?_, ?_, nofun⟩
  · cases c <;> rfl
  · cases c <;> rfl
  · cases c <;> exact id

theorem samePoint_woken (c : Call) :
    SamePoint (.call c (.asleep : Stage (Fin n))) (.call c .enter) :=
  samePoint_stage c Iff.rfl (by cases c <;> exact id)

theorem samePoint_wakeup (side : Side) (pc : Pc (Fin n)) : SamePoint pc (pc.wakeup side) := by
  cases pc with
  | idle => exact .refl _
  | call c stage =>
    cases stage with
    | asleep =>
      simp only [Pc.wakeup]
      split
      · exact samePoint_woken c
      · exact .refl _
    | _ => exact .refl _

theorem samePoint_rouse (pc : Pc (Fin n)) : SamePoint pc pc.rouse := by
  cases pc with
  | idle => exact .refl _
  | call c stage =>
    cases stage with
    | asleep => exact samePoint_woken c
    | _ => exact .refl _

theorem Sound.not_inside (h : Sound P procs H) (hfree : P.lock = none) (q : Fin n) :
    ¬ (procs q).inside := by
  intro hin
  rw [h.lock q, hfree] at hin
  cases hin

theorem Sound.alone (h : Sound P procs H) (hp : (procs p).inside) {q : Fin n} (hq : q ≠ p) :
    ¬ (procs q).inside := by
  intro hin
  rw [h.lock] at hin hp
  exact hq (Option.some.inj (hin.symm.trans hp))

theorem Sound.acquire (h : Sound P procs H) (hfree : P.lock = none) {pc : Pc (Fin n)}
    (hidle : procs p ≠ .idle) (hin : pc.inside) (hgot : pc.got = (procs p).got) (hfresh : pc.fresh)
    (hdone : pc.done = (procs p).done) (hrange : pc.inRange) :
    Sound (P.acquire p) (update procs p pc) H where
  lock q := by
    by_cases hq : q = p
    · subst hq
      simp [Pipe.acquire, hin]
    · simp [Pipe.acquire, hq, Ne.symm hq, h.not_inside hfree q]
  fresh := (forall_update_iff procs fun _ pc => pc.fresh).mpr
    ⟨hfresh, fun q _ => h.fresh q⟩
  __ := h
  idle_taken hnone := by cases hnone
  held_taken q hq := by
    obtain rfl : p = q := Option.some.inj hq
    have hout := h.not_inside hfree p
    simp [hgot, Pc.got_of_fresh (h.fresh p) hout, h.idle_taken hfree]
  mine q hq := by
    by_cases hqp : q = p
    · subst hqp
      simpa [hdone] using h.mine q hidle
    · simp only [update_of_ne hqp] at hq ⊢
      exact h.mine q hq
  inRange := (forall_update_iff procs fun _ pc => pc.inRange).mpr
    ⟨hrange, fun q _ => h.inRange q⟩

theorem Sound.release (h : Sound P procs H) (pc : Pc (Fin n)) (hp : (procs p).inside)
    (hout : ¬ pc.inside) (hfresh : pc.fresh) (hrange : pc.inRange)
    (hdone : pc ≠ .idle → procs p ≠ .idle ∧ pc.done = (procs p).done) :
    Sound P.release (update procs p pc)
      { H with returned := H.returned ++ (procs p).got } where
  lock q := by
    by_cases hq : q = p
    · subst hq
      simp [Pipe.release, hout]
    · simp [Pipe.release, hq, h.alone hp hq]
  fresh := (forall_update_iff procs fun _ pc => pc.fresh).mpr
    ⟨hfresh, fun q _ => h.fresh q⟩
  __ := h
  idle_taken _ := h.held_taken p ((h.lock p).mp hp)
  held_taken q hq := by cases hq
  mine q hq := by
    by_cases hqp : q = p
    · subst hqp
      simp only [update_self] at hq ⊢
      obtain ⟨hidle, hsame⟩ := hdone hq
      rw [hsame]
      exact h.mine q hidle
    · simp only [update_of_ne hqp] at hq ⊢
      exact h.mine q hq
  inRange := (forall_update_iff procs fun _ pc => pc.inRange).mpr
    ⟨hrange, fun q _ => h.inRange q⟩

theorem bytesOf_append (p : Fin n) (l m : List (Fin n × Byte)) :
    bytesOf p (l ++ m) = bytesOf p l ++ bytesOf p m := by
  simp [bytesOf]

theorem Write.Complete.append {w : Write n} {l : List (Fin n × Byte)} (h : w.Complete l)
    (hstop : w.stop ≤ l.length) (m : List (Fin n × Byte)) : w.Complete (l ++ m) := by
  intro hret
  rw [List.take_append_of_le_length hstop]
  exact h hret

section Sound

variable (h : Sound P procs H)
include h

theorem Sound.store {addr : ℕ → Byte} {k : ℤ} {i : ℕ}
    (hp : procs p = .call (.write addr k i) .body) (hi : (i : ℤ) < k) (hroom : ¬ P.full) :
    Sound (P.push (addr i)) (update procs p (.call (.write addr k (i + 1)) .body))
      { H with stored := H.stored ++ [(p, addr i)] } where
  lock := by
    have hlock := h.lock p
    rw [hp] at hlock
    exact (forall_update_iff procs fun q pc => pc.inside ↔ P.lock = some q).mpr
      ⟨hlock, fun q _ => h.lock q⟩
  fresh := (forall_update_iff procs fun _ pc => pc.fresh).mpr
    ⟨trivial, fun q _ => h.fresh q⟩
  carries := by
    have hfull : H.bytes.length ≠ H.taken.length + PIPESIZE := fun heq =>
      hroom ((h.carries.full_iff (by decide)).mpr heq)
    simpa [History.bytes, Pipe.push] using h.carries.store (by decide) hfull (addr i)
  idle_taken hfree := h.idle_taken hfree
  held_taken q hq := by
    have htaken := h.held_taken q hq
    by_cases hqp : q = p
    · subst hqp
      rw [hp] at htaken
      simpa [Pc.got] using htaken
    · simpa [hqp] using htaken
  base q := by
    simp only [List.length_append]
    exact (h.base q).trans (Nat.le_add_right _ _)
  mine q hq := by
    simp only [List.drop_append_of_le_length (h.base q), bytesOf_append]
    by_cases hqp : q = p
    · subst hqp
      have hmine := h.mine q (by simp [hp])
      rw [hp] at hmine
      rw [hmine, update_self]
      simp [Pc.done, bytesOf, List.range_succ]
    · simp only [update_of_ne hqp] at hq ⊢
      rw [h.mine q hq]
      simp [bytesOf, Ne.symm hqp]
  inRange := (forall_update_iff procs fun _ pc => pc.inRange).mpr
    ⟨(show i + 1 ≤ k.toNat by omega), fun q _ => h.inRange q⟩
  stop w hw := by
    simp only [List.length_append]
    exact (h.stop w hw).trans (Nat.le_add_right _ _)
  writes w hw := (h.writes w hw).append (h.stop w hw) _

theorem Sound.taking {k : ℤ} {got : List Byte}
    (hp : procs p = .call (.read k got) .copy) (hsome : ¬ P.empty) :
    Sound P.pop.2 (update procs p (.call (.read k (got ++ [P.pop.1])) .copy))
      { H with taken := H.taken ++ [P.pop.1] } where
  lock := by
    have hlock := h.lock p
    rw [hp] at hlock
    exact (forall_update_iff procs fun q pc => pc.inside ↔ P.lock = some q).mpr
      ⟨hlock, fun q _ => h.lock q⟩
  fresh := (forall_update_iff procs fun _ pc => pc.fresh).mpr
    ⟨trivial, fun q _ => h.fresh q⟩
  carries := by
    have hne : H.bytes.length ≠ H.taken.length := fun heq =>
      hsome ((h.carries.empty_iff (by decide)).mpr heq)
    exact h.carries.take (by decide) hne
  idle_taken hfree := by
    have hin : (procs p).inside := by simp [hp, Pc.inside]
    exact absurd hin (h.not_inside hfree p)
  held_taken q hq := by
    have hin : (procs p).inside := by simp [hp, Pc.inside]
    obtain rfl : p = q := Option.some.inj (((h.lock p).mp hin).symm.trans hq)
    have htaken := h.held_taken p hq
    rw [hp] at htaken
    simp [htaken, Pc.got]
  __ := h
  mine q hq := by
    by_cases hqp : q = p
    · subst hqp
      have hmine := h.mine q (by simp [hp])
      rw [hp] at hmine
      simpa [Pc.done] using hmine
    · simp only [update_of_ne hqp] at hq ⊢
      exact h.mine q hq
  inRange := (forall_update_iff procs fun _ pc => pc.inRange).mpr
    ⟨trivial, fun q _ => h.inRange q⟩

theorem Sound.wrote {addr : ℕ → Byte} {k r : ℤ} {i : ℕ}
    (hp : procs p = .call (.write addr k i) stage) (hr : r = k → i = k.toNat) :
    Sound P procs { H with writes := H.writes ++ [⟨p, addr, k, r, H.base p, H.stored.length⟩] }  where
  __ := h
  stop w hw := by
    rcases List.mem_append.mp hw with hw | hw
    · exact h.stop w hw
    · rw [List.mem_singleton.mp hw]
  writes w hw := by
    rcases List.mem_append.mp hw with hw | hw
    · exact h.writes w hw
    · rw [List.mem_singleton.mp hw]
      intro hret
      have hmine := h.mine p (by simp [hp])
      rw [hp] at hmine
      simpa [Pc.done, hr hret] using hmine

theorem Sound.move (hP : SameRing P P') {stage' : Stage (Fin n)}
    (hp : procs p = .call c stage) (hin : (Pc.call c stage').inside ↔ (Pc.call c stage).inside)
    (hfresh : (Pc.call c stage).fresh → (Pc.call c stage').fresh) :
    Sound P' (update procs p (.call c stage')) H :=
  h.congr hP (samePoint_update (hp ▸ samePoint_stage c hin hfresh))

theorem Sound.sleep (hp : procs p = .call c stage)
    (hin : (Pc.call c stage).inside) (hgot : (Pc.call c stage).got = []) :
    Sound P.release (update procs p (.call c .asleep)) H := by
  have hrange := h.inRange p
  rw [hp] at hrange
  have hrel := h.release (p := p) (.call c .asleep) (hp.symm ▸ hin) id ?_ ?_ ?_
  · rw [hp, hgot, List.append_nil] at hrel
    exact hrel
  · cases c <;> first | exact hgot | trivial
  · cases c <;> exact hrange
  · intro _
    rw [hp]
    exact ⟨nofun, by cases c <;> rfl⟩

theorem Sound.ret (hp : procs p = .call c stage) (hin : (Pc.call c stage).inside) :
    Sound P.release (update procs p .idle)
      { H with returned := H.returned ++ (Pc.call c stage).got } := by
  have hrel := h.release (p := p) .idle (hp.symm ▸ hin) id trivial trivial
    fun hno => absurd rfl hno
  rwa [hp] at hrel

end Sound

def System.Sound (s : System n) : Prop := Ipc.Sound s.pipe s.procs s.history

variable {s : System n}

theorem System.Sound.body (h : s.Sound) (hp : s.procs p = .call c .body) :
    (s.take p (bodyTurn (s.killed p) s.pipe s.locks c)).Sound := by
  cases c with
  | write addr k i =>
    simp only [bodyTurn, pipewriteTurn]
    split_ifs with hi hfull hgone
    · have hwrote : Ipc.Sound s.pipe s.procs _ := Ipc.Sound.wrote h hp (r := -1) fun hk => by omega
      simpa [System.take, System.record, System.Sound, Pc.got] using hwrote.ret hp trivial
    · exact Ipc.Sound.move h ⟨rfl, rfl, rfl, rfl⟩ hp Iff.rfl fun _ => trivial
    · exact Ipc.Sound.store h hp hi hfull
    · exact Ipc.Sound.move h ⟨rfl, rfl, rfl, rfl⟩ hp Iff.rfl fun _ => trivial
  | read k got =>
    have hgot : got = [] := by
      have hfresh := h.fresh p
      rwa [hp] at hfresh
    simp only [bodyTurn, pipereadTurn]
    split_ifs with hempty hkilled
    · exact Ipc.Sound.ret h hp trivial
    · exact Ipc.Sound.sleep h hp trivial hgot
    · exact Ipc.Sound.move h ⟨rfl, rfl, rfl, rfl⟩ hp Iff.rfl fun _ => trivial
  | close writable =>
    refine Ipc.Sound.move h ⟨?_, ?_, ?_, ?_⟩ hp Iff.rfl fun _ => trivial <;>
      cases writable <;> rfl

theorem System.Sound.copy (h : s.Sound) (hp : s.procs p = .call c .copy) :
    (s.take p (copyTurn s.pipe s.locks c)).Sound := by
  cases c with
  | read k got =>
    simp only [copyTurn]
    split_ifs with hmore
    · exact Ipc.Sound.taking h hp hmore.2
    · exact Ipc.Sound.move h ⟨rfl, rfl, rfl, rfl⟩ hp Iff.rfl fun _ => trivial
  | _ => exact Ipc.Sound.move h ⟨rfl, rfl, rfl, rfl⟩ hp Iff.rfl id

theorem System.Sound.leave (h : s.Sound) (hp : s.procs p = .call c .leave) :
    (s.take p (leaveTurn s.pipe s.locks c)).Sound := by
  cases c with
  | write addr k i =>
    simp only [leaveTurn]
    split_ifs with hi
    · exact Ipc.Sound.sleep h hp trivial rfl
    · have hrange := h.inRange p
      rw [hp] at hrange
      have hle : i ≤ k.toNat := hrange
      have hwrote : Ipc.Sound s.pipe s.procs _ := Ipc.Sound.wrote h hp (r := k) fun _ => by omega
      simpa [System.take, System.record, System.Sound, Pc.got] using hwrote.ret hp trivial
  | read k got => exact Ipc.Sound.ret h hp trivial
  | close writable =>
    have hret := Ipc.Sound.ret h hp trivial
    simp only [Pc.got, List.append_nil] at hret
    exact hret

def Event.silent : Event (Fin n) → Prop
  | .quiet | .wakeupSelid _ | .panic _ => True
  | _ => False

theorem silent_wakeupselect (L : Selproc (Fin n)) (locks : Fin n → Option (Fin n))
    (w : WakePc (Fin n)) : (wakeupselect p L locks w).2.2.silent := by
  cases w with
  | test i =>
    simp only [wakeupselect]
    split_ifs
    · split <;> trivial
    · trivial
    · trivial
  | acquire i q =>
    simp only [wakeupselect]
    split_ifs <;> trivial
  | wakeup i => trivial
  | release i =>
    simp only [wakeupselect]
    split
    · split_ifs <;> trivial
    · trivial

theorem System.Sound.record (h : s.Sound) {e : Event (Fin n)} (he : e.silent) :
    (s.record p e).Sound := by
  cases e with
  | quiet => exact h
  | wakeupSelid q => exact h
  | panic msg => exact h
  | _ => exact he.elim

theorem System.Sound.selected (h : s.Sound) {w : WakePc (Fin n)}
    (hp : s.procs p = .call c (.wakeupselect w)) :
    (s.take p (wakeupselectTurn s.pipe s.locks p c w)).Sound := by
  have hsilent := silent_wakeupselect (p := p) (s.pipe.list c.wakes) s.locks w
  have hfresh (stage : Stage (Fin n)) (hstage : stage = .wakeup ∨ ∃ w, stage = .wakeupselect w) :
      (Pc.call c stage).fresh := by
    rcases hstage with rfl | ⟨w, rfl⟩ <;> cases c <;> trivial
  simp only [wakeupselectTurn]
  generalize wakeupselect p (s.pipe.list c.wakes) s.locks w = r at hsilent
  obtain ⟨_ | w', locks, e⟩ := r
  · refine System.Sound.record ?_ hsilent
    exact Ipc.Sound.move h ⟨rfl, rfl, rfl, rfl⟩ hp Iff.rfl fun _ => hfresh _ (Or.inl rfl)
  · refine System.Sound.record ?_ hsilent
    exact Ipc.Sound.move h ⟨rfl, rfl, rfl, rfl⟩ hp Iff.rfl fun _ => hfresh _ (Or.inr ⟨w', rfl⟩)

theorem System.Sound.stepProc (h : s.Sound) : (s.stepProc p).Sound := by
  rw [System.stepProc]
  cases hp : s.procs p with
  | idle => exact h
  | call c stage =>
    simp only
    cases stage with
    | enter =>
      simp only [turn]
      split_ifs with hfree
      · have hfresh := h.fresh p
        have hrange := h.inRange p
        rw [hp] at hfresh hrange
        refine Ipc.Sound.acquire h hfree (by simp [hp]) trivial ?_ ?_ ?_ ?_
        · rw [hp]
          cases c <;> rfl
        · cases c <;> exact hfresh
        · rw [hp]
          cases c <;> rfl
        · cases c <;> exact hrange
      · exact Ipc.Sound.move h ⟨rfl, rfl, rfl, rfl⟩ hp Iff.rfl id
    | body => exact h.body hp
    | copy => exact h.copy hp
    | wakeupselect w => exact h.selected hp
    | wakeup =>
      have hmove : Ipc.Sound s.pipe (update s.procs p (.call c .leave)) s.history :=
        Ipc.Sound.move h ⟨rfl, rfl, rfl, rfl⟩ hp Iff.rfl (by cases c <;> exact fun _ => trivial)
      exact hmove.congr ⟨rfl, rfl, rfl, rfl⟩ fun q => samePoint_wakeup _ _
    | leave => exact h.leave hp
    | asleep => exact Ipc.Sound.move h ⟨rfl, rfl, rfl, rfl⟩ hp Iff.rfl id

def Call.Fresh (c : Call) : Prop :=
  (Pc.call c (.enter : Stage (Fin n))).got = [] ∧ (Pc.call c (.enter : Stage (Fin n))).done = [] ∧
    (Pc.call c (.enter : Stage (Fin n))).inRange

theorem System.Sound.call (h : s.Sound) (hc : Call.Fresh (n := n) c) : (s.call p c).Sound := by
  rw [System.call]
  cases hp : s.procs p with
  | call _ _ => exact h
  | idle =>
    obtain ⟨hgot, hdone, hrange⟩ := hc
    have hout : ¬ (Pc.call c (.enter : Stage (Fin n))).inside := id
    have hfree : s.pipe.lock ≠ some p := by
      have hlock := h.lock p
      rw [hp] at hlock
      exact hlock.not.mp id
    have hother {q : Fin n} (hq : s.pipe.lock = some q) : q ≠ p := by
      rintro rfl
      exact hfree hq
    exact
      { lock := (forall_update_iff s.procs fun q pc => pc.inside ↔ s.pipe.lock = some q).mpr
          ⟨⟨fun hin => absurd hin hout, fun hlock => absurd hlock hfree⟩, fun q _ => h.lock q⟩
        fresh := (forall_update_iff s.procs fun _ pc => pc.fresh).mpr
          ⟨by cases c <;> first | exact hgot | trivial, fun q _ => h.fresh q⟩
        carries := h.carries
        idle_taken := h.idle_taken
        held_taken := fun q hq => by
          simp only [System.start, update_of_ne (hother hq)]
          exact h.held_taken q hq
        base := (forall_update_iff s.history.base fun _ b => b ≤ _).mpr
          ⟨le_rfl, fun q _ => h.base q⟩
        mine := fun q hq => by
          simp only [System.start] at hq ⊢
          by_cases hqp : q = p
          · subst hqp
            simp [hdone, bytesOf]
          · simp only [update_of_ne hqp] at hq ⊢
            exact h.mine q hq
        inRange := (forall_update_iff s.procs fun _ pc => pc.inRange).mpr
          ⟨hrange, fun q _ => h.inRange q⟩
        stop := h.stop
        writes := h.writes }

theorem System.Sound.act (h : s.Sound) (a : Action n) : (s.act a).Sound := by
  cases a with
  | pipewrite p addr count => exact h.call ⟨rfl, rfl, Nat.zero_le _⟩
  | piperead p count => exact h.call ⟨rfl, rfl, trivial⟩
  | pipeclose p writable => exact h.call ⟨rfl, rfl, trivial⟩
  | step p => exact h.stepProc
  | kill p =>
    exact Ipc.Sound.congr h ⟨rfl, rfl, rfl, rfl⟩ (samePoint_update (samePoint_rouse _))
  | select sr sw locks =>
    exact Ipc.Sound.congr h ⟨rfl, rfl, rfl, rfl⟩ fun q => .refl _

theorem System.Sound.step (h : s.Sound) (a : Action n) : (step s a).Sound := by
  rw [Ipc.step]
  split
  · exact h
  · exact h.act a

theorem sound_initial (P : Pipe (Fin n)) (locks : Fin n → Option (Fin n)) :
    (System.initial P locks).Sound where
  lock p := by simp [System.initial, Pipe.fresh, Pc.inside]
  fresh _ := trivial
  carries := carries_empty P.data
  idle_taken _ := rfl
  held_taken p hp := by cases hp
  base _ := le_rfl
  mine p hp := absurd rfl hp
  inRange _ := trivial
  stop w hw := absurd hw List.not_mem_nil
  writes w hw := absurd hw List.not_mem_nil

theorem System.Sound.fifo (h : s.Sound) : Fifo s where
  prefix_stored := by
    have hpre := h.carries.isPrefix
    cases hlock : s.pipe.lock with
    | none =>
      rw [h.idle_taken hlock] at hpre
      exact hpre
    | some p =>
      rw [h.held_taken p hlock] at hpre
      exact (List.prefix_append _ _).trans hpre
  count := by
    have hbound := h.carries.bound
    rw [h.carries.toNat_sub (by decide)]
    omega
  writes := h.writes

end Sound

end Xv6Prng.Ipc
