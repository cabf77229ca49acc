import Xv6Prng.ProcLife

/-!
# Pids and the flag of a new process

`allocproc` takes the next pid for the slot that it finds, also when the fork then fails, and it
leaves `killed` as the slot has it. `kill` compares the pids of all slots, free ones too: a slot
that was never used or has been reaped has pid 0, and one of a failed fork has the pid that was
meant for it.
-/

namespace Xv6Prng.ProcLife

open Runs Function

section Calls

variable {n : ℕ}

namespace System

variable (s : System n)

def Calls (p : Fin n) : Prop :=
  s.panic = false ∧ (s.procs p).state = .running ∧ (s.procs p).pc = .user ∧
    (s.procs p).killed = false

def forkSlot (kalloc copyuvm : Bool) : Option (Fin n) :=
  if copyuvm then (s.allocproc kalloc).1 else none

def forkResult (kalloc copyuvm : Bool) : Word :=
  match s.allocproc kalloc with
  | (none, _) => -1
  | (some np, s) => if copyuvm then (s.procs np).pid else -1

def killSlot (pid : Word) : Option (Fin n) :=
  (List.finRange n).find? fun q => (s.procs q).pid = pid

def killResult (pid : Word) : Word :=
  match s.killSlot pid with
  | none => -1
  | some _ => 0

end System

variable {init p q : Fin n} {s : System n}

theorem step_of_calls (h : s.Calls p) (kalloc copyuvm : Bool) :
    step init s (.fork p kalloc copyuvm) = s.fork p kalloc copyuvm := by
  obtain ⟨hpanic, hstate, hpc, hkilled⟩ := h
  simp [step, hpanic, System.act, System.syscall, hstate, hpc, hkilled]

theorem forkSlot_eq_some {kalloc copyuvm : Bool} {np : Fin n}
    (h : s.forkSlot kalloc copyuvm = some np) :
    kalloc = true ∧ copyuvm = true ∧
      (List.finRange n).find? (fun q => (s.procs q).state = .unused) = some np := by
  unfold System.forkSlot System.allocproc at h
  cases hfind : (List.finRange n).find? fun q => (s.procs q).state = .unused with
  | none => simp [hfind] at h
  | some r =>
    rw [hfind] at h
    cases kalloc <;> cases copyuvm <;> simp_all

theorem forkResult_of_forkSlot {kalloc copyuvm : Bool} {np : Fin n}
    (h : s.forkSlot kalloc copyuvm = some np) : s.forkResult kalloc copyuvm = s.nextpid := by
  obtain ⟨rfl, rfl, hfind⟩ := forkSlot_eq_some h
  simp [System.forkResult, System.allocproc, hfind, System.set]

theorem find_killSlot {pid : Word} (h : s.killSlot pid = some q) : (s.procs q).pid = pid := by
  simpa using List.find?_some h

structure Alike (x y : Proc n) : Prop where
  unused : y.state = .unused ↔ x.state = .unused
  pid : y.pid = x.pid
  killed : y.killed = x.killed

theorem Alike.refl (x : Proc n) : Alike x x := ⟨Iff.rfl, rfl, rfl⟩

theorem Alike.trans {x y z : Proc n} (h : Alike x y) (h' : Alike y z) : Alike x z :=
  ⟨h'.unused.trans h.unused, h'.pid.trans h.pid, h'.killed.trans h.killed⟩

inductive Effect (s s' : System n) : Action n → Prop
  | quiet {a : Action n} (next : s'.nextpid = s.nextpid)
      (slots : ∀ r, Alike (s.procs r) (s'.procs r)) : Effect s s' a
  | fork {p np : Fin n} {kalloc copyuvm : Bool} (free : (s.procs np).state = .unused)
      (next : s'.nextpid = s.nextpid + 1) (pid : (s'.procs np).pid = s.nextpid)
      (killed : (s'.procs np).killed = (s.procs np).killed)
      (others : ∀ r ≠ np, s'.procs r = s.procs r) : Effect s s' (.fork p kalloc copyuvm)
  | reap {p c : Fin n} (next : s'.nextpid = s.nextpid) (pid : (s'.procs c).pid = 0)
      (killed : (s'.procs c).killed = false)
      (others : ∀ r ≠ c, Alike (s.procs r) (s'.procs r)) : Effect s s' (.waitScan p)
  | kill {p q : Fin n} {pid : Word} (calls : s.Calls p) (found : s.killSlot pid = some q)
      (next : s'.nextpid = s.nextpid) (same : (s'.procs q).pid = (s.procs q).pid)
      (state : (s'.procs q).state = .unused ↔ (s.procs q).state = .unused)
      (others : ∀ r ≠ q, s'.procs r = s.procs r) : Effect s s' (.kill p pid)

theorem effect_self (a : Action n) : Effect s s a := .quiet rfl fun _ => .refl _

theorem alike_set {x : Proc n} (h : Alike (s.procs p) x) (r : Fin n) :
    Alike (s.procs r) ((s.set p x).procs r) := by
  by_cases hr : r = p
  · subst hr
    simpa only [System.set, update_self] using h
  · simpa only [System.set, update_of_ne hr] using Alike.refl (s.procs r)

theorem effect_set {x : Proc n} (a : Action n) (h : Alike (s.procs p) x) : Effect s (s.set p x) a :=
  .quiet rfl (alike_set h)

theorem effect_enterExit (init p : Fin n) (a : Action n) : Effect s (s.enterExit init p) a := by
  unfold System.enterExit
  split_ifs
  · exact .quiet rfl fun _ => .refl _
  · exact effect_set a ⟨Iff.rfl, rfl, rfl⟩

theorem effect_fork (kalloc copyuvm : Bool) :
    Effect s (s.fork p kalloc copyuvm) (.fork p kalloc copyuvm) := by
  cases hfind : (List.finRange n).find? fun q => (s.procs q).state = .unused with
  | none =>
    have hsame : s.fork p kalloc copyuvm = s := by simp [System.fork, System.allocproc, hfind]
    rw [hsame]
    exact effect_self _
  | some np =>
    have hnew : ∀ x : Proc n, x = s.forked p np ∨ (∃ d, x = s.unforked np d) →
        x.pid = s.nextpid ∧ x.killed = (s.procs np).killed := by
      rintro x (rfl | ⟨d, rfl⟩)
      · exact ⟨rfl, rfl⟩
      · exact ⟨rfl, rfl⟩
    have hslot := hnew (if kalloc then if copyuvm then s.forked p np else s.unforked np none
        else s.unforked np (s.procs np).pgdir) (by
      cases kalloc with
      | false => exact .inr ⟨_, rfl⟩
      | true =>
        cases copyuvm with
        | false => exact .inr ⟨_, rfl⟩
        | true => exact .inl rfl)
    rw [fork_eq hfind]
    refine Effect.fork (find_unused hfind) rfl ?_ ?_ fun r (hr : r ≠ np) =>
      update_of_ne hr _ _
    · simpa only [update_self] using hslot.1
    · simpa only [update_self] using hslot.2

theorem alike_wakeup1 (chan : Chan n) (r : Fin n) :
    Alike (s.procs r) ((s.wakeup1 chan).procs r) := by
  simp only [System.wakeup1]
  split_ifs with h
  · exact ⟨by simp [h.1], rfl, rfl⟩
  · exact .refl _

theorem alike_reparent (init p r : Fin n) : Alike (s.procs r) ((s.reparent init p).procs r) := by
  simp only [System.reparent]
  split_ifs
  · exact ⟨Iff.rfl, rfl, rfl⟩
  · exact .refl _

theorem alike_passChildren (init p r : Fin n) :
    Alike (s.procs r) ((s.passChildren init p).procs r) := by
  unfold System.passChildren
  split_ifs
  · exact (alike_reparent init p r).trans (alike_wakeup1 _ r)
  · exact alike_reparent init p r

theorem alike_exitSched (hp : (s.procs p).state ≠ .unused) (r : Fin n) :
    Alike (s.procs r) ((s.exitSched init p).procs r) := by
  have hpass : ∀ r, Alike (s.procs r)
      (((s.wakeup1 (System.chanOf (s.procs p).parent)).passChildren init p).procs r) := fun r =>
    (alike_wakeup1 _ r).trans (alike_passChildren init p r)
  refine (hpass r).trans (alike_set (x := { System.procs _ p with state := .zombie }) ?_ r)
  have hused : ¬ (((s.wakeup1 (System.chanOf (s.procs p).parent)).passChildren init p).procs
      p).state = .unused := fun h => hp ((hpass p).unused.mp h)
  exact ⟨iff_of_false PState.noConfusion hused, rfl, rfl⟩

theorem nextpid_exitSched (init p : Fin n) : (s.exitSched init p).nextpid = s.nextpid := by
  simp only [System.exitSched, System.passChildren]
  split_ifs <;> rfl

theorem effect_waitScan (hp : (s.procs p).state = .running) :
    Effect s (s.waitScan p) (.waitScan p) := by
  unfold System.waitScan
  split
  · next c hc =>
    obtain ⟨-, hz⟩ : (s.procs c).parent = some p ∧ (s.procs c).state = .zombie := by
      simpa using List.find?_some hc
    have hne : p ≠ c := by
      rintro rfl
      rw [hz] at hp
      exact PState.noConfusion hp
    have hback : ∀ r, Alike ((s.reap p c).procs r)
        (((s.reap p c).set p { (s.reap p c).procs p with pc := .user }).procs r) :=
      alike_set ⟨Iff.rfl, rfl, rfl⟩
    have hreap : (s.reap p c).procs c = { s.procs c with
        state := .unused, pid := 0, parent := none, killed := false, kstack := none } :=
      update_self ..
    refine .reap (c := c) rfl ?_ ?_ fun r hr => ?_
    · rw [(hback c).pid, hreap]
    · rw [(hback c).killed, hreap]
    · have hsame : (s.reap p c).procs r = s.procs r := update_of_ne hr ..
      exact hsame ▸ hback r
  · split_ifs
    · exact .quiet rfl (alike_set ⟨Iff.rfl, rfl, rfl⟩)
    · exact effect_set _ ⟨by simp [hp], rfl, rfl⟩

theorem effect_kill (hp : s.Calls p) (pid : Word) : Effect s (s.kill pid) (.kill p pid) := by
  unfold System.kill
  split
  · exact effect_self _
  · next q hq =>
    have hupdate := update_self q (if (s.procs q).state = .sleeping then
      { s.procs q with killed := true, hit := true, state := .runnable }
      else { s.procs q with killed := true, hit := true }) s.procs
    refine .kill hp hq rfl ?_ ?_ fun r hr => update_of_ne hr _ _
    · simp only [System.set, hupdate]
      split_ifs <;> rfl
    · simp only [System.set, hupdate]
      split_ifs with hsleep
      · simp [hsleep]
      · exact Iff.rfl

variable {a : Action n}

theorem effect_guard {c : Prop} [Decidable c] {s' : System n} (h : c → Effect s s' a) :
    Effect s (if c then s' else s) a := by
  split_ifs with hc
  · exact h hc
  · exact effect_self a

theorem effect_syscall {call : System n} (hpanic : s.panic = false)
    (hcall : s.Calls p → Effect s call a) : Effect s (s.syscall init p call) a := by
  unfold System.syscall
  split_ifs with hrun hkilled
  · exact effect_enterExit init p a
  · exact hcall ⟨hpanic, hrun.1, hrun.2, Bool.eq_false_of_not_eq_true hkilled⟩
  · exact effect_self a

theorem effect_step (init : Fin n) (s : System n) (a : Action n) : Effect s (step init s a) a := by
  unfold step
  by_cases hpanic : s.panic = true
  · rw [if_pos hpanic]
    exact effect_self a
  · rw [if_neg hpanic]
    have hrun : s.panic = false := Bool.eq_false_of_not_eq_true hpanic
    cases a with
    | fork p kalloc copyuvm => exact effect_syscall hrun fun _ => effect_fork kalloc copyuvm
    | exit p => exact effect_guard fun _ => effect_enterExit init p _
    | exitSched p =>
      refine effect_guard fun hp => .quiet (nextpid_exitSched init p) ?_
      exact alike_exitSched (by simp [hp.1])
    | wait p => exact effect_syscall hrun fun _ => effect_set _ ⟨Iff.rfl, rfl, rfl⟩
    | waitScan p => exact effect_guard fun hp => effect_waitScan hp.1
    | kill p pid => exact effect_syscall hrun fun hp => effect_kill hp pid
    | schedule p => exact effect_guard fun hp => effect_set _ ⟨by simp [hp], rfl, rfl⟩
    | yield p => exact effect_guard fun hp => effect_set _ ⟨by simp [hp], rfl, rfl⟩
    | sleep p => exact effect_guard fun hp => effect_set _ ⟨by simp [hp.1], rfl, rfl⟩
    | wakeup p => exact effect_guard fun hp => effect_set _ ⟨by simp [hp.1], rfl, rfl⟩

/-- A new process is not marked, and `kill` succeeds only for a process. -/
def StartsClean (init : Fin n) (s : System n) : Action n → Prop
  | .fork p kalloc copyuvm => s.Calls p → ∀ np, s.forkSlot kalloc copyuvm = some np →
      ((step init s (.fork p kalloc copyuvm)).procs np).killed = false
  | .kill p pid => s.Calls p → s.killResult pid = 0 →
      ∃ q, (s.procs q).state ≠ .unused ∧ (s.procs q).pid = pid
  | _ => True

def HitsProcess (s : System n) : Action n → Prop
  | .kill p pid => s.Calls p → ∀ q, s.killSlot pid = some q → (s.procs q).state ≠ .unused
  | _ => True

def FreeUnmarked (s : System n) : Prop :=
  ∀ q, (s.procs q).state = .unused → (s.procs q).killed = false

theorem FreeUnmarked.step (h : FreeUnmarked s) (ha : HitsProcess s a) :
    FreeUnmarked (step init s a) := by
  intro r hr
  cases effect_step init s a with
  | quiet _ slots =>
    rw [(slots r).killed]
    exact h r ((slots r).unused.mp hr)
  | @fork p np _ _ free _ _ killed others =>
    by_cases hnp : r = np
    · subst hnp
      rw [killed]
      exact h r free
    · rw [others r hnp] at hr ⊢
      exact h r hr
  | @reap p c _ _ killed others =>
    by_cases hc : r = c
    · rw [hc]
      exact killed
    · rw [(others r hc).killed]
      exact h r ((others r hc).unused.mp hr)
  | @kill p q pid calls found _ _ state others =>
    by_cases hq : r = q
    · subst hq
      exact absurd (state.mp hr) (ha calls r found)
    · rw [others r hq] at hr ⊢
      exact h r hr

theorem FreeUnmarked.startsClean (h : FreeUnmarked s) (ha : HitsProcess s a) :
    StartsClean init s a := by
  cases a with
  | fork p kalloc copyuvm =>
    intro hp np hslot
    obtain ⟨rfl, rfl, hfind⟩ := forkSlot_eq_some hslot
    rw [step_of_calls hp, fork_eq hfind]
    simp only [update_self, if_true]
    exact h np (find_unused hfind)
  | kill p pid =>
    intro hp hres
    unfold System.killResult at hres
    cases hslot : s.killSlot pid with
    | none =>
      simp only [hslot] at hres
      exact absurd hres (by decide)
    | some q => exact ⟨q, ha hp q hslot, find_killSlot hslot⟩
  | _ => trivial

/-- Over every run: if `kill` never stops at a free slot, new processes start unmarked. -/
theorem along_startsClean (init : Fin n) (acts : List (Action n))
    (h : Along (step init) HitsProcess (.initial init) acts) :
    Along (step init) (StartsClean init) (.initial init) acts := by
  have hboot : FreeUnmarked (System.initial init) := fun q =>
    forall_initial (P := fun _ y => y.state = .unused → y.killed = false) (fun _ => rfl)
      (fun _ _ _ => rfl) q
  exact h.imp hboot (fun _ _ hs ha => hs.step ha) fun _ _ hs ha => hs.startsClean ha

def FreshPid (s : System n) : Action n → Prop
  | .fork p kalloc copyuvm => s.Calls p → ∀ np, s.forkSlot kalloc copyuvm = some np →
      0 < (s.forkResult kalloc copyuvm).toInt ∧
        ∀ q, (s.procs q).state ≠ .unused → (s.procs q).pid ≠ s.forkResult kalloc copyuvm
  | _ => True

def Action.forks : Action n → ℕ
  | .fork _ _ _ => 1
  | _ => 0

def forks (acts : List (Action n)) : ℕ := (acts.map Action.forks).sum

structure PidsBelow (k : ℕ) (s : System n) : Prop where
  low : 2 ≤ s.nextpid.toNat
  next : s.nextpid.toNat ≤ k + 2
  slots : ∀ q, (s.procs q).pid.toNat < s.nextpid.toNat

theorem PidsBelow.step {k : ℕ} (h : PidsBelow k s) (a : Action n) (hk : k + a.forks + 2 < 2 ^ 32) :
    PidsBelow (k + a.forks) (step init s a) := by
  cases effect_step init s a with
  | quiet next slots =>
    refine ⟨next ▸ h.low, next ▸ h.next.trans (by omega), fun r => ?_⟩
    rw [(slots r).pid, next]
    exact h.slots r
  | @fork p np _ _ free next pid killed others =>
    have hadd : (s.nextpid + 1).toNat = s.nextpid.toNat + 1 := by
      have := h.next
      simp only [Action.forks] at hk
      rw [BitVec.toNat_add]
      exact Nat.mod_eq_of_lt (by simp; omega)
    have hlow := h.low
    have hnext := h.next
    rw [← next] at hadd
    refine ⟨by omega, by simp only [Action.forks]; omega, fun r => ?_⟩
    rw [hadd]
    by_cases hnp : r = np
    · subst hnp
      rw [pid]
      omega
    · rw [others r hnp]
      exact (h.slots r).trans (Nat.lt_succ_self _)
  | @reap p c next pid killed others =>
    refine ⟨next ▸ h.low, next ▸ h.next, fun r => ?_⟩
    rw [next]
    by_cases hc : r = c
    · subst hc
      rw [pid]
      exact Nat.lt_of_lt_of_le (by decide) h.low
    · rw [(others r hc).pid]
      exact h.slots r
  | @kill p q pid calls found next same state others =>
    refine ⟨next ▸ h.low, next ▸ h.next, fun r => ?_⟩
    rw [next]
    by_cases hq : r = q
    · rw [hq, same]
      exact h.slots q
    · rw [others r hq]
      exact h.slots r

theorem PidsBelow.freshPid {k : ℕ} (h : PidsBelow k s) (hk : k + a.forks ≤ 2 ^ 31 - 2) :
    FreshPid s a := by
  cases a with
  | fork p kalloc copyuvm =>
    intro _ np hslot
    rw [forkResult_of_forkSlot hslot]
    have hlow := h.low
    have hnext := h.next
    simp only [Action.forks] at hk
    constructor
    · rw [BitVec.toInt_eq_toNat_of_lt (by omega)]
      omega
    · intro q _ heq
      have := h.slots q
      rw [heq] at this
      exact absurd this (lt_irrefl _)
  | _ => trivial

theorem PidsBelow.along {k : ℕ} (h : PidsBelow k s) {acts : List (Action n)}
    (hk : k + forks acts ≤ 2 ^ 31 - 2) : Along (ProcLife.step init) FreshPid s acts := by
  induction acts generalizing s k with
  | nil => trivial
  | cons a acts ih =>
    have hsum : forks (a :: acts) = a.forks + forks acts := List.sum_cons
    exact ⟨h.freshPid (by omega), ih (h.step a (by omega)) (by omega)⟩

theorem PidsBelow.initial (init : Fin n) : PidsBelow 0 (System.initial init) where
  low := le_rfl
  next := le_rfl
  slots := forall_initial (P := fun _ y => y.pid.toNat < 2) Nat.one_lt_two fun _ _ => Nat.two_pos

/-- In every run with at most `2 ^ 31 - 2` forks, failed ones included, the pids are positive and
fresh. -/
theorem along_freshPid (init : Fin n) (acts : List (Action n)) (h : forks acts ≤ 2 ^ 31 - 2) :
    Along (step init) FreshPid (.initial init) acts :=
  (PidsBelow.initial init).along (by omega)

structure Ready (init : Fin n) (s : System n) : Prop where
  calls : s.Calls init
  free : ∃ q, (s.procs q).state = .unused

theorem Ready.find (h : Ready init s) :
    ∃ np, (List.finRange n).find? (fun q => (s.procs q).state = .unused) = some np ∧
      np ≠ init := by
  obtain ⟨q, hq⟩ := h.free
  have hsome : ((List.finRange n).find? fun q => (s.procs q).state = .unused).isSome := by
    rw [List.find?_isSome]
    exact ⟨q, List.mem_finRange q, by simpa using hq⟩
  obtain ⟨np, hnp⟩ := Option.isSome_iff_exists.mp hsome
  refine ⟨np, hnp, ?_⟩
  rintro rfl
  have hrunning := h.calls.2.1
  rw [find_unused hnp] at hrunning
  exact PState.noConfusion hrunning

theorem Ready.forkSlot (h : Ready init s) : ∃ np, s.forkSlot true true = some np := by
  obtain ⟨np, hnp, -⟩ := h.find
  exact ⟨np, by simp [System.forkSlot, System.allocproc, hnp]⟩

theorem Ready.fork_fails (h : Ready init s) :
    Ready init (step init s (.fork init false false)) ∧
    (step init s (.fork init false false)).nextpid = s.nextpid + 1 ∧
    (step init s (.fork init false false)).procs init = s.procs init := by
  obtain ⟨np, hnp, hne⟩ := h.find
  obtain ⟨hpanic, hcalls⟩ := h.calls
  rw [step_of_calls h.calls, fork_eq hnp]
  have hinit : update s.procs np (s.unforked np (s.procs np).pgdir) init =
      s.procs init := update_of_ne hne.symm _ _
  refine ⟨⟨⟨hpanic, ?_⟩, np, ?_⟩, rfl, hinit⟩
  · simp only [Bool.false_eq_true, if_false, hinit]
    exact hcalls
  · simp only [Bool.false_eq_true, if_false, update_self]
    rfl

theorem Ready.forks_fail (h : Ready init s) (k : ℕ) :
    Ready init (run (step init) s (List.replicate k (.fork init false false))) ∧
    (run (step init) s (List.replicate k (.fork init false false))).nextpid =
      s.nextpid + BitVec.ofNat 32 k ∧
    (run (step init) s (List.replicate k (.fork init false false))).procs init =
      s.procs init := by
  induction k generalizing s with
  | zero => exact ⟨h, (BitVec.add_zero _).symm, rfl⟩
  | succ k ih =>
    obtain ⟨hready, hnext, hprocs⟩ := h.fork_fails
    obtain ⟨hready', hnext', hprocs'⟩ := ih hready
    rw [List.replicate_succ, run_cons]
    refine ⟨hready', ?_, hprocs'.trans hprocs⟩
    rw [hnext', hnext, BitVec.add_assoc, Nat.add_comm k 1, BitVec.ofNat_add]
    rfl

end Calls

abbrev NPROC : ℕ := 64

def firstSlot : Fin NPROC := ⟨0, by decide⟩

def killsChild : List (Action NPROC) :=
  [.schedule firstSlot, .fork firstSlot true true, .kill firstSlot 2, .fork firstSlot true true]

theorem along_startsClean_killsChild :
    Along (step firstSlot) (StartsClean firstSlot) (.initial firstSlot) killsChild :=
  along_startsClean firstSlot killsChild (by
    refine ⟨trivial, trivial, fun _ q hq => ?_, trivial, trivial⟩
    have hslot : (run (step firstSlot) (.initial firstSlot) (killsChild.take 2)).killSlot 2 =
        some ⟨1, by decide⟩ := by decide +kernel
    obtain rfl := Option.some.inj (hslot.symm.trans hq)
    decide +kernel)

def killsFree : List (Action NPROC) :=
  [.schedule firstSlot, .kill firstSlot 0, .fork firstSlot true true]

theorem not_along_startsClean :
    (run (step firstSlot) (.initial firstSlot) (killsFree.take 1)).killResult 0 = 0 ∧
    ((run (step firstSlot) (.initial firstSlot) killsFree).procs ⟨1, by decide⟩).state =
      .runnable ∧
    ((run (step firstSlot) (.initial firstSlot) killsFree).procs ⟨1, by decide⟩).killed = true ∧
    ¬ Along (step firstSlot) (StartsClean firstSlot) (.initial firstSlot) killsFree := by
  have hmarked : ((run (step firstSlot) (.initial firstSlot) killsFree).procs
      ⟨1, by decide⟩).killed = true := by decide +kernel
  refine ⟨by decide +kernel, by decide +kernel, hmarked, fun h => ?_⟩
  have hfork := h.2.2.1 (by unfold System.Calls; decide +kernel) ⟨1, by decide⟩ (by decide +kernel)
  exact Bool.false_ne_true (hfork.symm.trans hmarked)

def failedForks (k : ℕ) : List (Action NPROC) :=
  .schedule firstSlot :: List.replicate k (.fork firstSlot false false)

theorem along_freshPid_failedForks :
    Along (step firstSlot) FreshPid (.initial firstSlot)
      (failedForks 3 ++ [.fork firstSlot true true]) :=
  along_freshPid firstSlot _ (by decide)

theorem ready_scheduled :
    Ready firstSlot (step firstSlot (.initial firstSlot) (.schedule firstSlot)) :=
  ⟨by unfold System.Calls; decide +kernel, ⟨1, by decide⟩, by decide +kernel⟩

theorem failedForks_spec (k : ℕ) :
    Ready firstSlot (run (step firstSlot) (.initial firstSlot) (failedForks k)) ∧
    (run (step firstSlot) (.initial firstSlot) (failedForks k)).forkResult true true =
      2 + BitVec.ofNat 32 k ∧
    ((run (step firstSlot) (.initial firstSlot) (failedForks k)).procs firstSlot).pid = 1 := by
  obtain ⟨hready, hnext, hprocs⟩ := ready_scheduled.forks_fail k
  obtain ⟨np, hslot⟩ := hready.forkSlot
  refine ⟨hready, ?_, ?_⟩
  · exact (forkResult_of_forkSlot hslot).trans hnext
  · exact (congrArg Proc.pid hprocs).trans (by decide +kernel)

theorem not_fresh_failedForks (k : ℕ)
    (h : ¬ (0 < (2 + BitVec.ofNat 32 k : Word).toInt ∧ (1 : Word) ≠ 2 + BitVec.ofNat 32 k)) :
    ¬ Along (step firstSlot) FreshPid (.initial firstSlot)
      (failedForks k ++ [.fork firstSlot true true]) := by
  intro hall
  obtain ⟨hready, hresult, hpid⟩ := failedForks_spec k
  obtain ⟨np, hslot⟩ := hready.forkSlot
  have hfresh := (along_singleton _).mp ((along_append _ _).mp hall).2 hready.calls np hslot
  rw [hresult] at hfresh
  refine h ⟨hfresh.1, ?_⟩
  rw [← hpid]
  exact hfresh.2 firstSlot (by rw [hready.calls.2.1]; exact PState.noConfusion)

/-- After `2 ^ 31 - 2` failed forks the next pid is negative, and after `2 ^ 32 - 1` it is the
one of `init`. -/
theorem not_along_freshPid :
    (run (step firstSlot) (.initial firstSlot) (failedForks (2 ^ 31 - 2))).forkResult true true =
      BitVec.ofInt 32 (-2 ^ 31) ∧
    (run (step firstSlot) (.initial firstSlot) (failedForks (2 ^ 32 - 1))).forkResult true true =
      1 ∧
    (¬ Along (step firstSlot) FreshPid (.initial firstSlot)
      (failedForks (2 ^ 31 - 2) ++ [.fork firstSlot true true])) ∧
    ¬ Along (step firstSlot) FreshPid (.initial firstSlot)
      (failedForks (2 ^ 32 - 1) ++ [.fork firstSlot true true]) := by
  refine ⟨?_, ?_, not_fresh_failedForks _ (by decide), not_fresh_failedForks _ (by decide)⟩
  · exact (failedForks_spec _).2.1.trans (by decide)
  · exact (failedForks_spec _).2.1.trans (by decide)

end Xv6Prng.ProcLife
