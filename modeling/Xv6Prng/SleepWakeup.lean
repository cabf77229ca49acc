import Xv6Prng.Library.Runs

/-!
# `sleep` and `wakeup`

Processes that wait until a condition holds, and processes that make it hold, with the
schedulers of any number of processors. A waiter tests the condition under a lock `lk` and
calls `sleep(chan, lk)` while it is false; when it finds it true it may make it false again. A
signaller makes the condition true and calls `wakeup(chan)` under `lk`. If `lk` is
`ptable.lock` itself, it calls `wakeup1`, as `exit` does.

A step is an access to a lock, to the condition or to `p->state`. `sched` hands `ptable.lock`
to the scheduler of its processor, and the scheduler hands it to the process that it picks.
-/

namespace Xv6Prng.SleepWakeup

open Runs

inductive Lock
  | lk
  | ptable
  deriving DecidableEq

inductive PState
  | runnable
  | running
  | sleeping
  deriving DecidableEq

/-- `switched` is inside `sched`, called by `yield` or as `allocproc` sets it up; `asleep` is
inside `sched`, called by `sleep`. -/
inductive Pc
  | idle
  | waitAcquire
  | waitTest
  | sleepEnter
  | sleepRelease
  | sleepMark
  | sleepSched
  | asleep
  | sleepTidy
  | sleepReacquire
  | sleepReturn
  | waitDone
  | waitRelease
  | signalAcquire
  | signalSet
  | wakeupAcquire
  | wakeup1
  | wakeupRelease
  | signalRelease
  | yieldAcquire
  | yieldMark
  | yieldSched
  | switched
  | yieldRelease
  deriving DecidableEq

inductive Cpu
  | idle
  | scanning
  | away
  deriving DecidableEq

inductive Owner (n m : ℕ)
  | proc (p : Fin n)
  | cpu (c : Fin m)
  deriving DecidableEq

structure System (n m : ℕ) where
  cond : Bool
  owner : Lock → Option (Owner n m)
  state : Fin n → PState
  on : Fin n → Option (Fin m)
  pc : Fin n → Pc
  cpus : Fin m → Cpu

def System.initial (n m : ℕ) (cond : Bool) : System n m where
  cond := cond
  owner _ := none
  state _ := .runnable
  on _ := none
  pc _ := .switched
  cpus _ := .idle

inductive Action (n m : ℕ)
  | wait (p : Fin n)
  | signal (p : Fin n)
  | yield (p : Fin n)
  | step (p : Fin n) (cond : Bool)
  | kill (p : Fin n)
  | scan (c : Fin m)
  | pick (c : Fin m) (p : Fin n)
  | scanned (c : Fin m)

namespace System

variable {n m : ℕ} (L : Lock) (s : System n m) (p : Fin n)

def goto (pc : Pc) : System n m := { s with pc := Function.update s.pc p pc }

def setState (x : PState) : System n m := { s with state := Function.update s.state p x }

def setOwner (l : Lock) (o : Option (Owner n m)) : System n m :=
  { s with owner := Function.update s.owner l o }

def acquire (l : Lock) (pc : Pc) : System n m :=
  if s.owner l = none then (s.setOwner l (some (.proc p))).goto p pc else s

def release (l : Lock) (pc : Pc) : System n m := (s.setOwner l none).goto p pc

def wakeup1 : System n m :=
  { s with state := fun q => if s.state q = .sleeping then .runnable else s.state q }

def sched (c : Fin m) (pc : Pc) : System n m :=
  { (s.setOwner .ptable (some (.cpu c))).goto p pc with
    on := Function.update s.on p none
    cpus := Function.update s.cpus c .scanning }

/-- One step of a process on processor `c`; `L` is the lock that goes with the condition. -/
def exec (c : Fin m) (cond : Bool) : Pc → System n m
  | .idle | .asleep | .switched => s
  | .waitAcquire => s.acquire p L .waitTest
  | .waitTest => s.goto p (if s.cond then .waitDone else .sleepEnter)
  | .sleepEnter => if L = .ptable then s.goto p .sleepMark else s.acquire p .ptable .sleepRelease
  | .sleepRelease => s.release p L .sleepMark
  | .sleepMark => (s.setState p .sleeping).goto p .sleepSched
  | .sleepSched => s.sched p c .asleep
  | .sleepTidy =>
    if L = .ptable then s.goto p .sleepReturn else s.release p .ptable .sleepReacquire
  | .sleepReacquire => s.acquire p L .sleepReturn
  | .sleepReturn => s.goto p .waitTest
  | .waitDone => { s.goto p .waitRelease with cond := s.cond && cond }
  | .waitRelease => s.release p L .idle
  | .signalAcquire => s.acquire p L .signalSet
  | .signalSet =>
    { s.goto p (if L = .ptable then .wakeup1 else .wakeupAcquire) with cond := true }
  | .wakeupAcquire => s.acquire p .ptable .wakeup1
  | .wakeup1 => s.wakeup1.goto p (if L = .ptable then .signalRelease else .wakeupRelease)
  | .wakeupRelease => s.release p .ptable .signalRelease
  | .signalRelease => s.release p L .idle
  | .yieldAcquire => s.acquire p .ptable .yieldMark
  | .yieldMark => (s.setState p .runnable).goto p .yieldSched
  | .yieldSched => s.sched p c .switched
  | .yieldRelease => s.release p .ptable .idle

def resume : Pc → Pc
  | .asleep => .sleepTidy
  | .switched => .yieldRelease
  | pc => pc

def call (pc : Pc) : System n m :=
  if (s.on p).isSome ∧ s.pc p = .idle then s.goto p pc else s

def act : Action n m → System n m
  | .wait p => s.call p .waitAcquire
  | .signal p => s.call p .signalAcquire
  | .yield p => s.call p .yieldAcquire
  | .step p cond =>
    match s.on p with
    | some c => s.exec L p c cond (s.pc p)
    | none => s
  -- the whole of `kill` runs under `ptable.lock`
  | .kill p =>
    if s.owner .ptable = none ∧ s.state p = .sleeping then s.setState p .runnable else s
  | .scan c =>
    if s.cpus c = .idle ∧ s.owner .ptable = none then
      { s.setOwner .ptable (some (.cpu c)) with cpus := Function.update s.cpus c .scanning }
    else s
  | .pick c p =>
    if s.cpus c = .scanning ∧ s.state p = .runnable then
      { ((s.setState p .running).setOwner .ptable (some (.proc p))).goto p (resume (s.pc p)) with
        on := Function.update s.on p (some c)
        cpus := Function.update s.cpus c .away }
    else s
  | .scanned c =>
    if s.cpus c = .scanning then
      { s.setOwner .ptable none with cpus := Function.update s.cpus c .idle }
    else s

end System

def Pc.holds (L : Lock) : Pc → Lock → Prop
  | .waitTest, l | .sleepEnter, l | .sleepReturn, l | .waitDone, l | .waitRelease, l
  | .signalSet, l | .wakeupAcquire, l | .signalRelease, l => l = L
  | .sleepRelease, l | .wakeup1, l | .wakeupRelease, l => l = L ∨ l = .ptable
  | .sleepMark, l | .sleepSched, l | .sleepTidy, l | .yieldMark, l | .yieldSched, l
  | .yieldRelease, l => l = .ptable
  | _, _ => False

def Pc.pending : Pc → Prop
  | .wakeupAcquire | .wakeup1 => True
  | _ => False

def Pc.apart : Pc → Prop
  | .sleepRelease | .sleepReacquire | .wakeupAcquire | .wakeupRelease => True
  | _ => False

def Pc.committed : Pc → Prop
  | .sleepMark | .sleepSched => True
  | _ => False

section Invariant

variable {n m : ℕ} {L : Lock} {s : System n m} {p : Fin n}

attribute [local simp] System.goto System.setState System.setOwner System.sched Pc.pending
  Pc.committed

def System.Calm (s : System n m) : Prop := ∀ q, s.state q ≠ .sleeping ∧ ¬ (s.pc q).committed

/-- Nobody sleeps through a wake-up, and `sleep` returns with its lock held. -/
structure NoLostWakeup (L : Lock) (s : System n m) : Prop where
  awake : ∀ p, s.state p = .sleeping → s.cond = true → ∃ q, (s.pc q).pending
  locked : ∀ p, s.pc p = .sleepReturn → s.owner L = some (.proc p)

structure Sound (L : Lock) (s : System n m) : Prop where
  owner : ∀ p l, (s.pc p).holds L l ↔ s.owner l = some (.proc p)
  scanning : ∀ c, s.cpus c = .scanning ↔ s.owner .ptable = some (.cpu c)
  off : ∀ p, s.on p = none → s.pc p = .asleep ∨ s.pc p = .switched
  running : ∀ p, s.state p = .running ∨ s.on p = none ∨ s.pc p = .sleepSched ∨ s.pc p = .yieldSched
  apart : ∀ p, (s.pc p).apart → L ≠ .ptable
  tested : ∀ p, s.pc p = .sleepEnter ∨ s.pc p = .sleepRelease → s.cond = false
  awake : ∀ p, s.state p = .sleeping ∨ (s.pc p).committed → s.cond = true → ∃ q, (s.pc q).pending

theorem Sound.noLostWakeup (h : Sound L s) : NoLostWakeup L s where
  awake p hp := h.awake p (Or.inl hp)
  locked p hp := (h.owner p L).mp (by simp [hp, Pc.holds])

theorem sound_initial (cond : Bool) : Sound L (System.initial n m cond) where
  owner p l := by simp [System.initial, Pc.holds]
  scanning c := by simp [System.initial]
  off p _ := Or.inr rfl
  running p := Or.inr (Or.inl rfl)
  apart p hp := hp.elim
  tested p hp := by simp [System.initial] at hp
  awake p hp := by simp [System.initial] at hp

/-- One process takes a turn; the fields say what has to hold of it afterwards. -/
structure Turn (L : Lock) (s s' : System n m) (p : Fin n) : Prop where
  cond : s'.cond = s.cond
  others : ∀ q, q ≠ p → s'.pc q = s.pc q ∧ s'.state q = s.state q ∧ s'.on q = s.on q
  mine : ∀ l, (s'.pc p).holds L l ↔ s'.owner l = some (.proc p)
  theirs : ∀ l q, q ≠ p → (s'.owner l = some (.proc q) ↔ s.owner l = some (.proc q))
  scanning : ∀ c, s'.cpus c = .scanning ↔ s'.owner .ptable = some (.cpu c)
  off : s'.on p = none → s'.pc p = .asleep ∨ s'.pc p = .switched
  running : s'.state p = .running ∨ s'.on p = none ∨ s'.pc p = .sleepSched ∨ s'.pc p = .yieldSched
  apart : (s'.pc p).apart → L ≠ .ptable
  tested : s'.pc p = .sleepEnter ∨ s'.pc p = .sleepRelease → s.cond = false
  danger : s'.state p = .sleeping ∨ (s'.pc p).committed → s.cond = true →
    s.state p = .sleeping ∨ (s.pc p).committed
  pending : (s.pc p).pending → (s'.pc p).pending ∨ s.Calm

theorem Sound.turn {s' : System n m} (h : Sound L s) (ht : Turn L s s' p) : Sound L s' := by
  -- What holds of every process holds of `p` by `ht` and of the others because it did before.
  have hall {P : Fin n → Prop} (hp : P p) (hq : ∀ q, q ≠ p → P q) (q : Fin n) : P q :=
    (eq_or_ne q p).elim (fun heq => heq ▸ hp) (hq q)
  refine ⟨hall ht.mine fun q hq l => ?_, ht.scanning, hall ht.off fun q hq => ?_,
    hall ht.running fun q hq => ?_, hall ht.apart fun q hq => ?_, hall (ht.cond ▸ ht.tested)
    fun q hq => ?_, fun q hdanger hcond => ?_⟩
  · rw [(ht.others q hq).1, ht.theirs l q hq]
    exact h.owner q l
  · rw [(ht.others q hq).1, (ht.others q hq).2.2]
    exact h.off q
  · rw [(ht.others q hq).1, (ht.others q hq).2.1, (ht.others q hq).2.2]
    exact h.running q
  · rw [(ht.others q hq).1]
    exact h.apart q
  · rw [(ht.others q hq).1, ht.cond]
    exact h.tested q
  · rw [ht.cond] at hcond
    have hbefore : s.state q = .sleeping ∨ (s.pc q).committed := by
      by_cases hq : q = p
      · subst hq
        exact ht.danger hdanger hcond
      · rwa [(ht.others q hq).1, (ht.others q hq).2.1] at hdanger
    obtain ⟨r, hr⟩ := h.awake q hbefore hcond
    refine ⟨r, ?_⟩
    by_cases hrp : r = p
    · subst hrp
      exact (ht.pending hr).resolve_right fun hcalm => hbefore.elim (hcalm q).1 (hcalm q).2
    · rwa [(ht.others r hrp).1]

variable {pc : Pc}

theorem Sound.move (h : Sound L s) (hon : s.on p ≠ none)
    {own : Lock → Option (Owner n m)} (hself : ∀ l, pc.holds L l ↔ own l = some (.proc p))
    (hother : ∀ l o, o ≠ .proc p → (own l = some o ↔ s.owner l = some o))
    (hrun : s.state p = .running)
    (hapart : pc.apart → L ≠ .ptable)
    (htested : pc = .sleepEnter ∨ pc = .sleepRelease → s.cond = false)
    (hcommitted : pc.committed → s.cond = false)
    (hpending : (s.pc p).pending → pc.pending ∨ s.Calm) :
    Sound L { s with owner := own, pc := Function.update s.pc p pc } := by
  refine h.turn ⟨rfl, fun q hq => ⟨Function.update_of_ne hq _ _, rfl, rfl⟩, ?_,
    fun l q hq => hother l (.proc q) (by simpa using hq),
    fun c => (h.scanning c).trans (hother .ptable (.cpu c) (by simp)).symm,
    fun hoff => absurd hoff hon, Or.inl hrun, ?_, ?_, ?_, ?_⟩ <;>
    simp only [Function.update_self]
  · exact hself
  · exact hapart
  · exact htested
  · rintro (hs | hc) hcond
    · exact Or.inl hs
    · simp [hcommitted hc] at hcond
  · exact hpending

theorem Sound.state_running (h : Sound L s) (hon : s.on p ≠ none) (h1 : s.pc p ≠ .sleepSched)
    (h2 : s.pc p ≠ .yieldSched) : s.state p = .running := by
  rcases h.running p with hs | hs | hs | hs
  · exact hs
  · exact absurd hs hon
  · exact absurd hs h1
  · exact absurd hs h2

structure Quiet (L : Lock) (s : System n m) (p : Fin n) (pc : Pc) : Prop where
  from_sleep : s.pc p ≠ .sleepSched
  from_yield : s.pc p ≠ .yieldSched
  apart : pc.apart → L ≠ .ptable
  tested : pc = .sleepEnter ∨ pc = .sleepRelease → s.cond = false
  committed : pc.committed → s.cond = false
  pending : (s.pc p).pending → pc.pending ∨ s.Calm

def Pc.ordinary : Pc → Prop
  | .sleepSched | .yieldSched | .wakeupAcquire | .wakeup1 => False
  | _ => True

def Pc.plain : Pc → Prop
  | .sleepEnter | .sleepRelease | .sleepMark | .sleepSched | .sleepReacquire | .wakeupAcquire
  | .wakeupRelease => False
  | _ => True

theorem quiet {pc pc' : Pc} (hp : s.pc p = pc) (hfrom : pc.ordinary) (hto : pc'.plain) :
    Quiet L s p pc' := by
  subst hp
  constructor
  · intro hp
    simp [hp, Pc.ordinary] at hfrom
  · intro hp
    simp [hp, Pc.ordinary] at hfrom
  · cases pc' <;> first | exact False.elim | exact hto.elim
  · rintro (rfl | rfl) <;> exact hto.elim
  · cases pc' <;> first | exact False.elim | exact hto.elim
  · intro hpend
    cases hp : s.pc p <;> simp [hp] at hpend <;> simp [hp, Pc.ordinary] at hfrom

variable (h : Sound L s)
include h

theorem Sound.goto (hon : s.on p ≠ none) (hq : Quiet L s p pc)
    (hholds : ∀ l, pc.holds L l ↔ (s.pc p).holds L l) : Sound L (s.goto p pc) :=
  h.move hon (fun l => (hholds l).trans (h.owner p l)) (fun _ _ _ => Iff.rfl)
    (h.state_running hon hq.from_sleep hq.from_yield) hq.apart hq.tested hq.committed hq.pending

theorem Sound.acquire (hon : s.on p ≠ none) {l : Lock} (hq : Quiet L s p pc)
    (hholds : ∀ l', pc.holds L l' ↔ l' = l ∨ (s.pc p).holds L l') : Sound L (s.acquire p l pc) := by
  rw [System.acquire]
  split_ifs with hfree
  · refine h.move hon (fun l' => ?_) (fun l' o ho => ?_)
      (h.state_running hon hq.from_sleep hq.from_yield) hq.apart hq.tested hq.committed hq.pending
    · rw [hholds l', h.owner p l']
      by_cases hl : l' = l
      · simp [hl]
      · simp [hl]
    · by_cases hl : l' = l
      · subst hl
        simp [hfree, Ne.symm ho]
      · simp [hl]
  · exact h

theorem Sound.release (hon : s.on p ≠ none) {l : Lock} (hq : Quiet L s p pc)
    (hl : (s.pc p).holds L l) (hholds : ∀ l', pc.holds L l' ↔ l' ≠ l ∧ (s.pc p).holds L l') :
    Sound L (s.release p l pc) := by
  have hmine : s.owner l = some (.proc p) := (h.owner p l).mp hl
  refine h.move hon (fun l' => ?_) (fun l' o ho => ?_)
    (h.state_running hon hq.from_sleep hq.from_yield) hq.apart hq.tested hq.committed hq.pending
  · rw [hholds l', h.owner p l']
    by_cases hl' : l' = l
    · simp [hl']
    · simp [hl']
  · by_cases hl' : l' = l
    · subst hl'
      simp [hmine, Ne.symm ho]
    · simp [hl']

theorem Sound.mark (hon : s.on p ≠ none) {x : PState} (hpc : pc = .sleepSched ∨ pc = .yieldSched)
    (hheld : ∀ l, (s.pc p).holds L l ↔ l = .ptable) (hpend : ¬ (s.pc p).pending)
    (hsleep : x = .sleeping ∨ pc = .sleepSched → (s.pc p).committed) :
    Sound L ((s.setState p x).goto p pc) := by
  have hnew (l : Lock) : pc.holds L l ↔ l = .ptable := by rcases hpc with rfl | rfl <;> rfl
  refine h.turn (p := p) ⟨rfl, fun q hq => by simp [hq], fun l => ?_, fun _ _ _ => Iff.rfl, h.scanning,
    fun hoff => absurd hoff hon, by simp [hpc], ?_, ?_, fun hdanger _ => Or.inr (hsleep ?_),
    fun hp => absurd hp hpend⟩
  · simpa [hnew, hheld] using h.owner p l
  · rcases hpc with rfl | rfl <;> simp [Pc.apart]
  · rcases hpc with rfl | rfl <;> simp
  · refine hdanger.imp (by simp) fun hc => ?_
    rcases hpc with rfl | rfl
    · rfl
    · simp at hc

variable {c : Fin m}

theorem Sound.sched (hfrom : s.pc p = .sleepSched ∨ s.pc p = .yieldSched)
    (hpc : pc = .asleep ∨ pc = .switched) : Sound L (s.sched p c pc) := by
  have hheld (l : Lock) : (s.pc p).holds L l ↔ l = .ptable := by
    rcases hfrom with hp | hp <;> simp [hp, Pc.holds]
  have hmine : s.owner .ptable = some (.proc p) := (h.owner p .ptable).mp ((hheld _).mpr rfl)
  have hnew (l : Lock) : ¬ pc.holds L l := by rcases hpc with rfl | rfl <;> exact id
  refine h.turn (p := p) ⟨rfl, fun q hq => by simp [hq], fun l => ?_, fun l q hq => ?_, fun d => ?_,
    by simp [hpc], by simp, ?_, ?_, fun hdanger _ => hdanger.imp_right ?_, ?_⟩
  · by_cases hl : l = .ptable
    · simp [hl, hnew]
    · simpa [hl, hnew] using mt (h.owner p l).mpr (mt (hheld l).mp hl)
  · by_cases hl : l = .ptable
    · simp [hl, hmine, Ne.symm hq]
    · simp [hl]
  · by_cases hd : d = c
    · simp [hd]
    · simpa [hd, Ne.symm hd, hmine] using h.scanning d
  · rcases hpc with rfl | rfl <;> simp [Pc.apart]
  · rcases hpc with rfl | rfl <;> simp
  · rcases hpc with rfl | rfl <;> simp
  · rcases hfrom with hp | hp <;> simp [hp]

theorem Sound.wakeup1 (hp : s.pc p = .wakeup1) : Sound L s.wakeup1 ∧ s.wakeup1.Calm := by
  have hmine : s.owner .ptable = some (.proc p) :=
    (h.owner p .ptable).mp (by simp [hp, Pc.holds])
  have hnone (q : Fin n) : ¬ (s.pc q).committed := fun hc => by
    have hq : s.owner .ptable = some (.proc q) := by
      refine (h.owner q .ptable).mp ?_
      cases hpc : s.pc q <;> simp [hpc] at hc <;> simp [Pc.holds]
    obtain rfl : p = q := by simpa [hmine] using hq
    simp [hp] at hc
  have hcalm : s.wakeup1.Calm := fun q => by
    refine ⟨?_, hnone q⟩
    simp only [System.wakeup1]
    split_ifs with hq
    · simp
    · exact hq
  refine ⟨⟨h.owner, h.scanning, h.off, fun q => ?_, h.apart, h.tested, fun q hq _ => ?_⟩, hcalm⟩
  · refine (h.running q).imp_left fun hq => ?_
    simp [System.wakeup1, hq]
  · exact absurd hq (by simpa using hcalm q)

theorem Sound.setCond {b : Bool}
    (htested : ∀ q, s.pc q = .sleepEnter ∨ s.pc q = .sleepRelease → b = false)
    (hawake : b = true → s.cond = true ∨ ∃ q, (s.pc q).pending) : Sound L { s with cond := b } where
  __ := h
  tested := htested
  awake q hq hb := (hawake hb).elim (h.awake q hq) id

theorem Sound.exec (hon : s.on p = some c) (cond : Bool) :
    Sound L (s.exec L p c cond (s.pc p)) := by
  have hon' : s.on p ≠ none := by simp [hon]
  cases hp : s.pc p with
  | idle => exact h
  | asleep => exact h
  | switched => exact h
  | waitAcquire =>
    exact h.acquire hon' (quiet hp trivial trivial)
      (by simp [hp, Pc.holds])
  | waitTest =>
    simp only [System.exec]
    split_ifs with hcond
    · exact h.goto hon' (quiet hp trivial trivial) (by simp [hp, Pc.holds])
    · exact h.goto hon' ⟨by simp [hp], by simp [hp], nofun, by simpa using hcond, nofun,
        by simp [hp]⟩ (by simp [hp, Pc.holds])
  | sleepEnter =>
    have hfalse := h.tested p (Or.inl hp)
    simp only [System.exec]
    split_ifs with hL
    · exact h.goto hon' ⟨by simp [hp], by simp [hp], nofun, by simp, fun _ => hfalse,
        by simp [hp]⟩ (by simp [hp, Pc.holds, hL])
    · exact h.acquire hon' ⟨by simp [hp], by simp [hp], fun _ => hL, fun _ => hfalse, nofun,
        by simp [hp]⟩ (by simp [hp, Pc.holds, or_comm])
  | sleepRelease =>
    have hfalse := h.tested p (Or.inr hp)
    have hL : L ≠ .ptable := h.apart p (by simp [hp, Pc.apart])
    refine h.release hon' ⟨by simp [hp], by simp [hp], nofun, by simp, fun _ => hfalse,
      by simp [hp]⟩ (by simp [hp, Pc.holds]) fun l => ?_
    simp only [hp, Pc.holds]
    grind
  | sleepMark =>
    exact h.mark hon' (Or.inl rfl) (by simp [hp, Pc.holds]) (by simp [hp])
      (by simp [hp])
  | sleepSched => exact h.sched (Or.inl hp) (Or.inl rfl)
  | sleepTidy =>
    simp only [System.exec]
    split_ifs with hL
    · exact h.goto hon' (quiet hp trivial trivial) (by simp [hp, Pc.holds, hL])
    · exact h.release hon' ⟨by simp [hp], by simp [hp], fun _ => hL, by simp, nofun,
        by simp [hp]⟩ (by simp [hp, Pc.holds]) (by simp [hp, Pc.holds])
  | sleepReacquire =>
    exact h.acquire hon' (quiet hp trivial trivial)
      (by simp [hp, Pc.holds])
  | sleepReturn =>
    exact h.goto hon' (quiet hp trivial trivial)
      (by simp [hp, Pc.holds])
  | waitDone =>
    have hmoved : Sound L (s.goto p .waitRelease) :=
      h.goto hon' (quiet hp trivial trivial) (by simp [hp, Pc.holds])
    refine hmoved.setCond (fun q hq => ?_) fun hb => Or.inl ?_
    · rw [show s.cond = false from hmoved.tested q hq, Bool.false_and]
    · exact (Bool.and_eq_true_iff.mp hb).1
  | waitRelease =>
    exact h.release hon' (quiet hp trivial trivial)
      (by simp [hp, Pc.holds]) (by simp [hp, Pc.holds])
  | signalAcquire =>
    exact h.acquire hon' (quiet hp trivial trivial)
      (by simp [hp, Pc.holds])
  | signalSet =>
    -- whoever has found the condition false would hold the lock
    have halone (q : Fin n) : ¬ (s.pc q = .sleepEnter ∨ s.pc q = .sleepRelease) := fun hq => by
      have hmine := (h.owner p L).mp (by simp [hp, Pc.holds])
      have hother := (h.owner q L).mp (by rcases hq with hq | hq <;> simp [hq, Pc.holds])
      obtain rfl : p = q := by simpa [hmine] using hother
      simp [hp] at hq
    have hmoved : Sound L (s.goto p (if L = .ptable then .wakeup1 else .wakeupAcquire)) := by
      refine h.goto hon' ⟨by simp [hp], by simp [hp], ?_, ?_, ?_, by simp [hp]⟩ ?_
      · split_ifs with hL
        · exact False.elim
        · exact fun _ => hL
      · split_ifs <;> simp
      · split_ifs <;> exact False.elim
      · split_ifs with hL <;> simp [hp, Pc.holds, hL]
    refine hmoved.setCond (fun q hq => ?_) fun _ => Or.inr ⟨p, ?_⟩
    · by_cases hqp : q = p
      · subst hqp
        simp only [System.goto, Function.update_self] at hq
        split_ifs at hq <;> simp at hq
      · simp only [System.goto, Function.update_of_ne hqp] at hq
        exact absurd hq (halone q)
    · simp only [System.goto, Function.update_self]
      split_ifs <;> trivial
  | wakeupAcquire =>
    exact h.acquire hon' ⟨by simp [hp], by simp [hp], nofun, by simp, nofun, fun _ => Or.inl trivial⟩
      (by simp [hp, Pc.holds, or_comm])
  | wakeup1 =>
    obtain ⟨hwoken, hcalm⟩ := h.wakeup1 hp
    refine hwoken.goto hon' ⟨by simp [System.wakeup1, hp], by simp [System.wakeup1, hp], ?_, ?_, ?_,
      fun _ => Or.inr hcalm⟩ ?_
    · split_ifs with hL
      · exact False.elim
      · exact fun _ => hL
    · split_ifs <;> simp
    · split_ifs <;> exact False.elim
    · split_ifs with hL <;> simp [System.wakeup1, hp, Pc.holds, hL]
  | wakeupRelease =>
    have hL : L ≠ .ptable := h.apart p (by simp [hp, Pc.apart])
    refine h.release hon' (quiet hp trivial trivial) (by simp [hp, Pc.holds]) fun l => ?_
    simp only [hp, Pc.holds]
    grind
  | signalRelease =>
    exact h.release hon' (quiet hp trivial trivial)
      (by simp [hp, Pc.holds]) (by simp [hp, Pc.holds])
  | yieldAcquire =>
    exact h.acquire hon' (quiet hp trivial trivial)
      (by simp [hp, Pc.holds])
  | yieldMark =>
    exact h.mark hon' (Or.inr rfl) (by simp [hp, Pc.holds]) (by simp [hp])
      (by simp)
  | yieldSched => exact h.sched (Or.inr hp) (Or.inr rfl)
  | yieldRelease =>
    exact h.release hon' (quiet hp trivial trivial)
      (by simp [hp, Pc.holds]) (by simp [hp, Pc.holds])

theorem Sound.call (hto : pc.plain) (hholds : ∀ l, ¬ pc.holds L l) : Sound L (s.call p pc) := by
  rw [System.call]
  split_ifs with hcall
  · obtain ⟨hon, hp⟩ := hcall
    refine h.goto (by simpa [Option.isSome_iff_ne_none] using hon) (quiet hp trivial hto) fun l => ?_
    rw [hp]
    exact iff_of_false (hholds l) id
  · exact h

theorem Sound.kill (hp : s.state p = .sleeping) : Sound L (s.setState p .runnable) where
  __ := h
  running q := by
    by_cases hq : q = p
    · subst hq
      have hrun := h.running q
      rw [hp] at hrun
      simpa using hrun
    · simpa [hq] using h.running q
  awake q hq := by
    refine h.awake q (hq.imp_left fun hs => ?_)
    by_cases hqp : q = p
    · simp [hqp] at hs
    · simpa [hqp] using hs

theorem Sound.schedule {o : Option (Owner n m)} {x : Cpu}
    (hown : ∀ p, s.owner .ptable ≠ some (.proc p)) (hnew : ∀ p, o ≠ some (.proc p))
    (hcpu : ∀ d, d ≠ c → s.owner .ptable ≠ some (.cpu d) ∧ o ≠ some (.cpu d))
    (hc : x = .scanning ↔ o = some (.cpu c)) :
    Sound L { s.setOwner .ptable o with cpus := Function.update s.cpus c x } where
  owner q l := by
    by_cases hl : l = .ptable
    · have hno : ¬ (s.pc q).holds L .ptable := fun hh => hown q ((h.owner q _).mp hh)
      simp [hl, hno, hnew]
    · simpa [hl] using h.owner q l
  scanning d := by
    by_cases hd : d = c
    · simpa [hd] using hc
    · have hno : s.cpus d ≠ .scanning := fun hs => (hcpu d hd).1 ((h.scanning d).mp hs)
      simp [hd, hno, (hcpu d hd).2]
  __ := h

theorem Sound.pick (hc : s.cpus c = .scanning)
    (hp : s.state p = .runnable) : Sound L (s.act L (.pick c p)) := by
  have hown : s.owner .ptable = some (.cpu c) := (h.scanning c).mp hc
  have hnone (q : Fin n) : ¬ (s.pc q).holds L .ptable := fun hh => by
    have := (h.owner q _).mp hh
    simp [hown] at this
  have hoff : s.on p = none := by
    rcases h.running p with hr | hr | hr | hr
    · simp [hp] at hr
    · exact hr
    · exact absurd (by simp [hr, Pc.holds]) (hnone p)
    · exact absurd (by simp [hr, Pc.holds]) (hnone p)
  have hpc := h.off p hoff
  have hholds (l : Lock) : (System.resume (s.pc p)).holds L l ↔ l = .ptable := by
    rcases hpc with hpc | hpc <;> simp [hpc, System.resume, Pc.holds]
  have hold (l : Lock) : ¬ (s.pc p).holds L l := by
    rcases hpc with hpc | hpc <;> simp [hpc, Pc.holds]
  simp only [System.act, hc, hp, and_self, if_true]
  refine h.turn (p := p) ⟨rfl, fun q hq => by simp [hq], fun l => ?_, fun l q hq => ?_, fun d => ?_,
    by simp, by simp, ?_, ?_, ?_, ?_⟩
  · by_cases hl : l = .ptable
    · simp [hl, hholds]
    · simpa [hl, hholds] using mt (h.owner p l).mpr (hold l)
  · by_cases hl : l = .ptable
    · simp [hl, hown, Ne.symm hq]
    · simp [hl]
  · by_cases hd : d = c
    · simp [hd]
    · simpa [hd, Ne.symm hd, hown] using h.scanning d
  · rcases hpc with hpc | hpc <;> simp [hpc, System.resume, Pc.apart]
  · rcases hpc with hpc | hpc <;> simp [hpc, System.resume]
  · rcases hpc with hpc | hpc <;> simp [hpc, System.resume]
  · rcases hpc with hpc | hpc <;> simp [hpc]

theorem Sound.act (a : Action n m) : Sound L (s.act L a) := by
  cases a with
  | wait p => exact h.call trivial fun _ => id
  | signal p => exact h.call trivial fun _ => id
  | yield p => exact h.call trivial fun _ => id
  | step p cond =>
    simp only [System.act]
    split
    next c hon => exact h.exec hon cond
    next => exact h
  | kill p =>
    simp only [System.act]
    split_ifs with hk
    · exact h.kill hk.2
    · exact h
  | scan c =>
    simp only [System.act]
    split_ifs with hc
    · refine h.schedule (by simp [hc.2]) (by simp) (fun d hd => ?_) (by simp)
      simp [hc.2, Ne.symm hd]
    · exact h
  | pick c p =>
    by_cases hc : s.cpus c = .scanning ∧ s.state p = .runnable
    · exact h.pick hc.1 hc.2
    · simpa only [System.act, if_neg hc] using h
  | scanned c =>
    simp only [System.act]
    split_ifs with hc
    · have hown := (h.scanning c).mp hc
      refine h.schedule (by simp [hown]) (by simp) (fun d hd => ?_) (by simp)
      simp [hown, Ne.symm hd]
    · exact h

end Invariant

theorem always_noLostWakeup {n m : ℕ} (L : Lock) (cond : Bool) (acts : List (Action n m)) :
    Always (System.act L) (NoLostWakeup L) (System.initial n m cond) acts := by
  intro pre _
  exact (run_invariant (sound_initial cond) fun _ a h => h.act a).noLostWakeup

end Xv6Prng.SleepWakeup
