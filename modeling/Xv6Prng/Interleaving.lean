import Xv6Prng.Library.Runs
import Xv6Prng.GenBlocks

/-!
# Concurrent calls of `random`

No lock protects the `prng` record. A call is cut into the steps between which the timer
may switch to another process: what is done under one acquisition of a lock is one step,
and so are the expansion of the key, the encryption of the counter, its increment and the
installation of a key. What a call does with its own pages is one step where it can stop the
kernel and none where it cannot; pages do not run out, each hash is given any page as its
buffer, and a left shift by 32 bits or more gives zero.

The shared record also counts increments, decisions to reseed and completed reseeds, and
keeps the pairs of key and counter that were encrypted.
-/

namespace Xv6Prng

open ByteWords Halting Runs Function

structure Shared where
  prng : Prng
  pools : Fin 32 → EntropyPool
  ticks : Word
  increments : ℕ
  decisions : ℕ
  completions : ℕ
  used : List (Buffer 32 × Counter)

namespace Shared

variable (sh : Shared)

def initial : Shared where
  prng := Prng.initial
  pools := fun _ => EntropyPool.empty
  ticks := 0
  increments := 0
  decisions := 0
  completions := 0
  used := []

@[simps] def tick : Shared := { sh with ticks := sh.ticks + 1 }
@[simps] def addEvent (e : RandomEvent) : Shared := { sh with pools := e.addTo sh.pools }

@[simps] def decideReseed : Shared :=
  { sh with
    prng := sh.prng.setReseedCtr (sh.prng.reseedCtr + 1)
    decisions := sh.decisions + 1 }

@[simps] def drain (i : Fin 32) : Shared :=
  { sh with pools := Function.update sh.pools i (sh.pools i).drain }

@[simps] def setKey (key : Buffer 32) : Shared := { sh with prng := sh.prng.setKey key }

@[simps] def incr : Shared :=
  { sh with
    prng := sh.prng.setCounter sh.prng.counter.incrctr
    increments := sh.increments + 1 }

@[simps] def stamp : Shared :=
  { sh with
    prng := sh.prng.setLastReseedTicks sh.ticks
    completions := sh.completions + 1 }

@[simps] def use (key : Buffer 32) : Shared :=
  { sh with used := sh.used ++ [(key, sh.prng.counter)] }

end Shared

/-- One of the two calls of `prnggenblocks` in a request of `size` bytes. -/
structure Job where
  size : ℕ
  rekeying : Bool

def Job.blocks (job : Job) : ℕ := if job.rekeying then 2 else numblocks job.size

/-- Where a call of `random` stands, with the locals it still needs. The completed reseeds
in `ticked`, the number of the reseed in `draining` and the pair in `incrementing` are
ghosts. -/
inductive Pc
  | idle
  | start (n : ℕ)
  | ticked (n : ℕ) (xticks : Word) (done : ℕ)
  | draining (n : ℕ) (r : Word) (seed : Page) (offset : ℕ) (i : Fin 32)
  | seeding (n : ℕ) (seed : Page) (offset : ℕ)
  | bumping (n : ℕ)
  | stamping (n : ℕ)
  | checking (n : ℕ)
  | entering (job : Job)
  | expanding (job : Job) (out : List Aes.Block)
  | encrypting (job : Job) (out : List Aes.Block) (key : Buffer 32)
  | incrementing (job : Job) (out : List Aes.Block) (key : Buffer 32) (counter : Counter)
  | copying (n : ℕ)
  | installing (n : ℕ) (out : List Aes.Block)
  | handing (n : ℕ)

def Pc.atPool (n : ℕ) (r : Word) (seed : Page) (offset i : ℕ) : Pc :=
  if h : i < MAX_POOLS then .draining n r seed offset ⟨i, h⟩ else .seeding n seed offset

def Job.resume (job : Job) (out : List Aes.Block) : Pc :=
  if out.length < job.blocks then .expanding job out
  else if job.rekeying then .installing job.size out
  else .copying job.size

def Pc.reseeding : Pc → Bool
  | .draining .. | .seeding .. | .bumping _ | .stamping _ => true
  | _ => false

@[simp] theorem Pc.reseeding_atPool (n : ℕ) (r : Word) (seed : Page) (offset i : ℕ) :
    (Pc.atPool n r seed offset i).reseeding = true := by
  rw [atPool]
  split <;> rfl

@[simp] theorem Job.resume_reseeding (job : Job) (out : List Aes.Block) :
    (job.resume out).reseeding = false := by
  rw [resume]
  split
  · rfl
  · split <;> rfl

@[simp] theorem Pc.atPool_ne_stamping (n m : ℕ) (r : Word) (seed : Page) (offset i : ℕ) :
    Pc.atPool n r seed offset i ≠ .stamping m := by
  rw [atPool]
  split <;> simp

@[simp] theorem Job.resume_ne_stamping (job : Job) (out : List Aes.Block) (m : ℕ) :
    job.resume out ≠ .stamping m := by
  intro h
  have hr := job.resume_reseeding out
  rw [h] at hr
  cases hr

def keyOf (out : List Aes.Block) : Buffer 32 := fun i =>
  ((out[i.val / 16]?).map fun block => block.get ⟨i.val % 16, Nat.mod_lt _ (by decide)⟩).getD 0

def Pc.step (sh : Shared) (page : Page) : Pc → Except Stop (Shared × Pc)
  | .idle => .ok (sh, .idle)
  | .start n => .ok (sh, .ticked n sh.ticks sh.completions)
  | .ticked n xticks _ =>
    if reseedDue (sh.pools 0) xticks sh.prng.lastReseedTicks then
      .ok (sh.decideReseed, .atPool n (sh.prng.reseedCtr + 1) (fun _ => 0) 0 0)
    else .ok (sh, .checking n)
  | .draining n r seed offset i =>
    if poolSelected sh.prng.reseedCtr i.val then
      if Hash.sizeOk (sh.pools i).hashLength then
        .ok (sh.drain i, .atPool n r (putBytes seed offset
          (Hash.hashed (fun _ _ => 0) (sh.pools i).entropy (sh.pools i).hashLength page))
          (offset + 32) (i.val + 1))
      else .error (.panic "invalid sha256 message size\n")
    else .ok (sh, .atPool n r seed offset (i.val + 1))
  | .seeding n seed offset =>
    if Hash.sizeOk offset then .ok (sh.setKey (Hash.hashed (fun _ _ => 0) seed offset page), .bumping n)
    else .error (.panic "invalid sha256 message size\n")
  | .bumping n => .ok (sh.incr, .stamping n)
  | .stamping n => .ok (sh.stamp, .checking n)
  | .checking n =>
    if sh.prng.reseedCtr = 0 then
      .error (.panic "prngrand: attempted to get random data without seeding.")
    else if n > 2 ^ 20 then .error (.panic "prngranddata: requested negative or too much data.")
    else .ok (sh, .entering ⟨n, false⟩)
  | .entering job =>
    if sh.prng.counter.c0 = 0 then
      .error (.panic "prnggenblocks: called with non-seeded generator.")
    else .ok (sh, job.resume [])
  | .expanding job out => .ok (sh, .encrypting job out sh.prng.key)
  | .encrypting job out key =>
    .ok (sh.use key, .incrementing job (out ++ [encryptCounter key sh.prng.counter]) key
      sh.prng.counter)
  | .incrementing job out _ _ => .ok (sh.incr, job.resume out)
  | .copying n =>
    -- The copy to the output leaves the pages of a longer request.
    if n > 4096 then .error (.undefined .outOfPage) else .ok (sh, .entering ⟨n, true⟩)
  | .installing n out => .ok (sh.setKey (keyOf out), .handing n)
  | .handing n =>
    -- The loop over the output pages frees a null entry after whole pages.
    if n = 0 ∨ n = 4096 then .error (.panic "kfree") else .ok (sh, .idle)

section Step

variable (sh : Shared) (page : Page)

theorem Pc.step_decide {xticks : Word} (n done : ℕ)
    (h : reseedDue (sh.pools 0) xticks sh.prng.lastReseedTicks) :
    (Pc.ticked n xticks done).step sh page =
      .ok (sh.decideReseed, .atPool n (sh.prng.reseedCtr + 1) (fun _ => 0) 0 0) := by
  rw [step, if_pos h]

theorem Pc.step_drain (n : ℕ) (r : Word) (seed : Page) (offset : ℕ) {i : Fin 32}
    (h : Hash.sizeOk (sh.pools i).hashLength) :
    ∃ seed', (Pc.draining n r seed offset i).step sh page =
      .ok (sh.drain i, .atPool n r seed' (offset + 32) (i.val + 1)) :=
  ⟨_, by rw [step, if_pos (poolSelected_of_lt _ i.isLt), if_pos h]⟩

end Step

/-- The steps that do not stop the kernel. A pool is never left out: the test that selects
the pools is true for every one. -/
inductive Pc.Goes (sh : Shared) (page : Page) : Pc → Shared → Pc → Prop
  | idle : Goes sh page .idle sh .idle
  | readTicks (n : ℕ) : Goes sh page (.start n) sh (.ticked n sh.ticks sh.completions)
  | decide (n : ℕ) (xticks : Word) (done : ℕ)
      (h : reseedDue (sh.pools 0) xticks sh.prng.lastReseedTicks) :
      Goes sh page (.ticked n xticks done) sh.decideReseed
        (.atPool n (sh.prng.reseedCtr + 1) (fun _ => 0) 0 0)
  | skip (n : ℕ) (xticks : Word) (done : ℕ)
      (h : ¬ reseedDue (sh.pools 0) xticks sh.prng.lastReseedTicks) :
      Goes sh page (.ticked n xticks done) sh (.checking n)
  | drain (n : ℕ) (r : Word) (seed seed' : Page) (offset : ℕ) (i : Fin 32)
      (h : Hash.sizeOk (sh.pools i).hashLength) :
      Goes sh page (.draining n r seed offset i) (sh.drain i)
        (.atPool n r seed' (offset + 32) (i.val + 1))
  | seed (n : ℕ) (seed : Page) (offset : ℕ) (key : Buffer 32) :
      Goes sh page (.seeding n seed offset) (sh.setKey key) (.bumping n)
  | bump (n : ℕ) : Goes sh page (.bumping n) sh.incr (.stamping n)
  | stamp (n : ℕ) : Goes sh page (.stamping n) sh.stamp (.checking n)
  | check (n : ℕ) (h : sh.prng.reseedCtr ≠ 0) :
      Goes sh page (.checking n) sh (.entering ⟨n, false⟩)
  | enter (job : Job) (h : sh.prng.counter.c0 ≠ 0) :
      Goes sh page (.entering job) sh (job.resume [])
  | expand (job : Job) (out : List Aes.Block) :
      Goes sh page (.expanding job out) sh (.encrypting job out sh.prng.key)
  | encrypt (job : Job) (out : List Aes.Block) (key : Buffer 32) :
      Goes sh page (.encrypting job out key) (sh.use key)
        (.incrementing job (out ++ [encryptCounter key sh.prng.counter]) key sh.prng.counter)
  | increment (job : Job) (out : List Aes.Block) (key : Buffer 32) (c : Counter) :
      Goes sh page (.incrementing job out key c) sh.incr (job.resume out)
  | copy (n : ℕ) : Goes sh page (.copying n) sh (.entering ⟨n, true⟩)
  | install (n : ℕ) (out : List Aes.Block) :
      Goes sh page (.installing n out) (sh.setKey (keyOf out)) (.handing n)
  | hand (n : ℕ) : Goes sh page (.handing n) sh .idle

variable {page : Page} {sh sh' : Shared} {pc pc' : Pc}

theorem Pc.step_goes (h : pc.step sh page = .ok (sh', pc')) : pc.Goes sh page sh' pc' := by
  cases pc with
  | idle => cases h; exact .idle
  | start n => cases h; exact .readTicks n
  | ticked n xticks done =>
    rw [step] at h
    split at h
    · cases h; exact .decide n xticks done ‹_›
    · cases h; exact .skip n xticks done ‹_›
  | draining n r seed offset i =>
    rw [step, if_pos (poolSelected_of_lt _ i.isLt)] at h
    split at h
    · cases h; exact .drain n r seed _ offset i ‹_›
    · cases h
  | seeding n seed offset =>
    rw [step] at h
    split at h
    · cases h; exact .seed n seed offset _
    · cases h
  | bumping n => cases h; exact .bump n
  | stamping n => cases h; exact .stamp n
  | checking n =>
    rw [step] at h
    split at h
    · cases h
    · split at h
      · cases h
      · cases h; exact .check n ‹_›
  | entering job =>
    rw [step] at h
    split at h
    · cases h
    · cases h; exact .enter job ‹_›
  | expanding job out => cases h; exact .expand job out
  | encrypting job out key => cases h; exact .encrypt job out key
  | incrementing job out key c => cases h; exact .increment job out key c
  | copying n =>
    rw [step] at h
    split at h
    · cases h
    · cases h; exact .copy n
  | installing n out => cases h; exact .install n out
  | handing n =>
    rw [step] at h
    split at h
    · cases h
    · cases h; exact .hand n

inductive Shared.Next (sh : Shared) : Shared → Prop
  | same : Next sh sh
  | event (e : RandomEvent) : Next sh (sh.addEvent e)
  | tick : Next sh sh.tick
  | decideReseed : Next sh sh.decideReseed
  | drain (i : Fin 32) : Next sh (sh.drain i)
  | setKey (key : Buffer 32) : Next sh (sh.setKey key)
  | incr : Next sh sh.incr
  | stamp : Next sh sh.stamp
  | use (key : Buffer 32) : Next sh (sh.use key)

theorem Pc.Goes.next (h : pc.Goes sh page sh' pc') : sh.Next sh' := by
  cases h with
  | idle | readTicks | skip | check | enter | expand | copy | hand => exact .same
  | decide => exact .decideReseed
  | drain n r seed seed' offset i => exact .drain i
  | seed n seed offset key => exact .setKey key
  | bump => exact .incr
  | stamp => exact .stamp
  | encrypt job out key => exact .use key
  | increment => exact .incr
  | install n out => exact .setKey _

structure Sys (ι : Type) where
  shared : Shared
  procs : ι → Pc
  stopped : Option Stop

/-- What happens next: an event or a tick, a process calls `random`, or a call takes its
next step, with a page in case it hashes. -/
inductive Action (ι : Type)
  | event (e : RandomEvent)
  | tick
  | call (p : ι) (n : ℕ)
  | run (p : ι) (page : Page)

namespace Sys

variable {ι : Type} [DecidableEq ι]

def boot : Sys ι := ⟨Shared.initial, fun _ => .idle, none⟩

def resume (σ : Sys ι) (p : ι) (r : Except Stop (Shared × Pc)) : Sys ι :=
  match r with
  | .ok (sh, pc) => ⟨sh, Function.update σ.procs p pc, σ.stopped⟩
  | .error e => { σ with stopped := some e }

def step (σ : Sys ι) (a : Action ι) : Sys ι :=
  if σ.stopped.isSome then σ
  else match a with
    | .event e => { σ with shared := σ.shared.addEvent e }
    | .tick => { σ with shared := σ.shared.tick }
    | .call p n =>
      match σ.procs p with
      | .idle => { σ with procs := Function.update σ.procs p (.start n) }
      | _ => σ
    | .run p page => σ.resume p ((σ.procs p).step σ.shared page)

inductive Moves (σ : Sys ι) : Action ι → Sys ι → Prop
  | stay (a : Action ι) : Moves σ a σ
  | event (e : RandomEvent) : Moves σ (.event e) { σ with shared := σ.shared.addEvent e }
  | tick : Moves σ .tick { σ with shared := σ.shared.tick }
  | call (p : ι) (n : ℕ) (hp : σ.procs p = .idle) :
      Moves σ (.call p n) { σ with procs := Function.update σ.procs p (.start n) }
  | halt (p : ι) (page : Page) (e : Stop) (hs : σ.stopped = none)
      (h : (σ.procs p).step σ.shared page = .error e) :
      Moves σ (.run p page) { σ with stopped := some e }
  | move (p : ι) (page : Page) (sh : Shared) (pc : Pc) (hs : σ.stopped = none)
      (h : (σ.procs p).step σ.shared page = .ok (sh, pc)) :
      Moves σ (.run p page) ⟨sh, Function.update σ.procs p pc, none⟩

variable {σ : Sys ι}

theorem step_of_stopped {e : Stop} (hs : σ.stopped = some e) (a : Action ι) : σ.step a = σ := by
  rw [step.eq_def, hs]
  rfl

variable {p : ι}

theorem step_run_ok (hs : σ.stopped = none) {sh : Shared}
    {pc : Pc} (h : (σ.procs p).step σ.shared page = .ok (sh, pc)) :
    σ.step (.run p page) = ⟨sh, update σ.procs p pc, none⟩ := by
  simp only [step, hs, h, resume, Option.isSome_none, Bool.false_eq_true, if_false]

theorem step_run_at {procs : ι → Pc} (hp : procs p = pc) (h : pc.step sh page = .ok (sh', pc')) :
    Sys.step ⟨sh, procs, none⟩ (.run p page) = ⟨sh', update procs p pc', none⟩ := by
  subst hp
  exact step_run_ok rfl h

theorem step_run_error (hs : σ.stopped = none) {e : Stop}
    (h : (σ.procs p).step σ.shared page = .error e) :
    σ.step (.run p page) = { σ with stopped := some e } := by
  simp only [step, hs, h, resume, Option.isSome_none, Bool.false_eq_true, if_false]

theorem step_moves (σ : Sys ι) (a : Action ι) : Moves σ a (σ.step a) := by
  cases hs : σ.stopped with
  | some e =>
    rw [step_of_stopped hs]
    exact .stay a
  | none =>
    cases a with
    | event e =>
      simp only [step, hs, Option.isSome_none, Bool.false_eq_true, if_false]
      rw [← hs]
      exact .event e
    | tick =>
      simp only [step, hs, Option.isSome_none, Bool.false_eq_true, if_false]
      rw [← hs]
      exact .tick
    | call p n =>
      cases hp : σ.procs p with
      | idle =>
        simp only [step, hs, hp, Option.isSome_none, Bool.false_eq_true, if_false]
        rw [← hs]
        exact .call p n hp
      | _ =>
        simp only [step, hs, hp, Option.isSome_none, Bool.false_eq_true, if_false]
        exact .stay _
    | run p page =>
      cases hr : (σ.procs p).step σ.shared page with
      | error e =>
        rw [step_run_error hs hr]
        exact .halt p page e hs hr
      | ok r =>
        obtain ⟨sh, pc⟩ := r
        rw [step_run_ok hs hr]
        exact .move p page sh pc hs hr

theorem forall_update {Q : Pc → Prop} {procs : ι → Pc} {pc : Pc} (hp : Q pc)
    (hq : ∀ q, q ≠ p → Q (procs q)) (q : ι) : Q (update procs p pc q) := by
  by_cases h : q = p
  · subst h
    rwa [update_self]
  · rw [update_of_ne h]
    exact hq q h

theorem step_next (σ : Sys ι) (a : Action ι) : σ.shared.Next (σ.step a).shared := by
  have h := step_moves σ a
  generalize σ.step a = σ' at h
  cases h with
  | stay | call | halt => exact .same
  | event e => exact .event e
  | tick => exact .tick
  | move p page sh pc hs h => exact (Pc.step_goes h).next

end Sys

structure Shared.Counted (sh : Shared) : Prop where
  counter : sh.prng.counter = Counter.incrctr^[sh.increments] Counter.zero
  reseedCtr : sh.prng.reseedCtr = BitVec.ofNat 32 sh.decisions

theorem Shared.Counted.next {sh sh' : Shared} (h : sh.Counted) (hn : sh.Next sh') :
    sh'.Counted := by
  cases hn with
  | same | event | tick | drain | setKey | stamp | use => exact ⟨h.counter, h.reseedCtr⟩
  | decideReseed =>
    refine ⟨h.counter, ?_⟩
    simp only [decideReseed_prng, decideReseed_decisions, Prng.setReseedCtr_reseedCtr,
      h.reseedCtr, BitVec.ofNat_add]
    rfl
  | incr =>
    refine ⟨?_, h.reseedCtr⟩
    simp only [incr_prng, incr_increments, Prng.setCounter_counter, h.counter,
      iterate_succ_apply']

theorem Shared.Counted.run {ι : Type} [DecidableEq ι] {σ : Sys ι} (h : σ.shared.Counted)
    (acts : List (Action ι)) : (Runs.run Sys.step σ acts).shared.Counted :=
  run_invariant (I := fun σ : Sys ι => σ.shared.Counted) h fun σ a h => h.next (σ.step_next a)

theorem Sys.counted_run {ι : Type} [DecidableEq ι] (acts : List (Action ι)) :
    (run Sys.step Sys.boot acts).shared.Counted :=
  Shared.Counted.run ⟨rfl, rfl⟩ acts

end Xv6Prng
