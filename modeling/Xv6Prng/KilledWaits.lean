import Xv6Prng.ConsoleLine
import Xv6Prng.SelectWake

/-!
# Killed while waiting

The six calls in which a process waits and may be killed: `wait`, `sys_sleep`, `piperead`,
`pipewrite`, `consoleread` and `sys_select`. A pass goes from the head of the waiting loop to the
next `sleep` or to the return; nobody changes what the loop tests meanwhile. Between passes the
rest of the kernel does what it likes. `kill` may also come in the middle of a pass, after the
flag was tested. On its way out `consoleread` locks the console's inode again and may have to wait
for it, without a look at the flag. What a call copies to its caller is left out. The loop of
`consoleread` here is made of turns of that of `ConsoleLine`.
-/

namespace Xv6Prng.KilledWaits

open Runs Select SelectWake

structure Slot where
  child : Bool
  zombie : Bool
  pid : ℤ

structure World (κ ι : Type) where
  table : List Slot
  ticks : Word
  pipes : κ → Ipc.Pipe ι
  input : Console.Input
  /-- `I_BUSY` of the console's inode. -/
  busy : Bool

inductive Call (κ : Type)
  | wait
  | sleep (ticks0 n : Word)
  | piperead (k : κ) (n : ℤ)
  | pipewrite (k : κ) (addr : ℕ → Byte) (n : ℤ) (i : ℕ)
  | consoleread (n target : ℤ)
  | ilock (r : ℤ)
  | select (a : Args) (ofile : ℕ → Ptr (Desc κ))

inductive Outcome (κ : Type)
  | ret (r : ℤ)
  | sleep (c : Call κ)

section Passes

variable {κ ι : Type} (killed : Bool)

def reap : List Slot → Option (ℤ × List Slot)
  | [] => none
  | p :: ps =>
    if p.child ∧ p.zombie then some (p.pid, ⟨false, false, 0⟩ :: ps)
    else (reap ps).map fun r => (r.1, p :: r.2)

def waitPass (w : World κ ι) : World κ ι × Outcome κ :=
  match reap w.table with
  | some (pid, table) => ({ w with table := table }, .ret pid)
  | none =>
    if w.table.any Slot.child = false ∨ killed = true then (w, .ret (-1)) else (w, .sleep .wait)

/-- `ticks - ticks0 < n` compares unsigned numbers. -/
def sleepPass (ticks0 n : Word) (w : World κ ι) : World κ ι × Outcome κ :=
  if w.ticks - ticks0 < n then
    if killed = true then (w, .ret (-1)) else (w, .sleep (.sleep ticks0 n))
  else (w, .ret 0)

/-- The second loop of `piperead` when `i` bytes have been copied and `n` are still wanted. -/
def copyOut : (n i : ℕ) → Ipc.Pipe ι → ℕ × Ipc.Pipe ι
  | 0, i, P => (i, P)
  | n + 1, i, P => if P.empty then (i, P) else copyOut n (i + 1) P.pop.2

variable [DecidableEq κ]

def pipereadPass (k : κ) (n : ℤ) (w : World κ ι) : World κ ι × Outcome κ :=
  let P := w.pipes k
  if P.empty ∧ P.writeopen = true then
    if killed = true then (w, .ret (-1)) else (w, .sleep (.piperead k n))
  else
    let r := copyOut n.toNat 0 P
    ({ w with pipes := Function.update w.pipes k r.2 }, .ret r.1)

def pipewriteLoop (k : κ) (addr : ℕ → Byte) (n : ℤ) :
    (left i : ℕ) → Ipc.Pipe ι → Ipc.Pipe ι × Outcome κ
  | 0, _, P => (P, .ret n)
  | left + 1, i, P =>
    if P.full then
      if P.readopen = false ∨ killed = true then (P, .ret (-1))
      else (P, .sleep (.pipewrite k addr n i))
    else pipewriteLoop k addr n left (i + 1) (P.push (addr i))

def pipewritePass (k : κ) (addr : ℕ → Byte) (n : ℤ) (i : ℕ) (w : World κ ι) :
    World κ ι × Outcome κ :=
  let r := pipewriteLoop killed k addr n (n - i).toNat i (w.pipes k)
  ({ w with pipes := Function.update w.pipes k r.1 }, r.2)

def consolereadLoop (target : ℤ) : (n : ℕ) → Console.Input → Console.Input × Outcome κ
  | 0, I => (I, .ret target)
  | n + 1, I =>
    if I.readable then
      -- an end of file is left for the next call, unless this one has read nothing
      if I.take.1 = 4 then
        (if (n : ℤ) + 1 < target then I else I.take.2, .ret (target - (n + 1)))
      else if I.take.1 = 10 then (I.take.2, .ret (target - n))
      else consolereadLoop target n I.take.2
    else if killed = true then (I, .ret (-1))
    else (I, .sleep (.consoleread (n + 1) target))

/-- The loop of `ilock` at the end of `consoleread`, which then returns `r`. -/
def ilockPass (r : ℤ) (w : World κ ι) : World κ ι × Outcome κ :=
  if w.busy then (w, .sleep (.ilock r)) else ({ w with busy := true }, .ret r)

def consolereadPass (n target : ℤ) (w : World κ ι) : World κ ι × Outcome κ :=
  if 0 < n then
    let r := consolereadLoop killed target n.toNat w.input
    match r.2 with
    | .ret v => ilockPass v { w with input := r.1 }
    | .sleep c => ({ w with input := r.1 }, .sleep c)
  else ilockPass (target - n) w

def found (a : Args) (ofile : ℕ → Ptr (Desc κ)) (w : World κ ι) : Bool :=
  (List.range a.nfds.toNat).any fun x => [Mode.read, Mode.write].any fun m =>
    a.selected x m && match ofile x with
      | .file d => 0 < fileReady w.pipes w.input killed m d
      | _ => false

/-- `sys_select` does not look at `killed`; the tests of readiness do. -/
def selectPass (a : Args) (ofile : ℕ → Ptr (Desc κ)) (w : World κ ι) : World κ ι × Outcome κ :=
  if found killed a ofile w then (w, .ret 0) else (w, .sleep (.select a ofile))

def Call.pass : Call κ → World κ ι → World κ ι × Outcome κ
  | .wait => waitPass killed
  | .sleep ticks0 n => sleepPass killed ticks0 n
  | .piperead k n => pipereadPass killed k n
  | .pipewrite k addr n i => pipewritePass killed k addr n i
  | .consoleread n target => consolereadPass killed n target
  | .ilock r => ilockPass r
  | .select a ofile => selectPass killed a ofile

end Passes

section Turns

variable {κ ι : Type} [DecidableEq ι] {p : ι} {t n : ℕ}

/-- The process has returned, or it waits for more. -/
def Follows (p : ι) (t : ℕ) (returned : List (ι × Word)) (s : Console.System ι) :
    Console.Input × Outcome κ → Prop
  | (I, .ret r) => s.input = I ∧ s.reader p = none ∧
      s.returned = returned ++ [(p, BitVec.ofInt 32 r)]
  | (I, .sleep c) => s.input = I ∧ s.returned = returned ∧
      ∃ n : ℕ, c = .consoleread n t ∧ s.reader p = some ⟨BitVec.ofNat 32 t, BitVec.ofNat 32 n⟩

theorem ofNat_sub (a b : ℕ) : BitVec.ofNat 32 a - BitVec.ofNat 32 b = BitVec.ofInt 32 (a - b) := by
  rw [Int.sub_eq_add_neg, BitVec.ofInt_add, BitVec.ofInt_neg, ← BitVec.sub_eq_add_neg,
    BitVec.ofInt_natCast, BitVec.ofInt_natCast]

theorem follows_finish {s s₁ : Console.System ι} {killed : Bool} {v : Word} {r : ℤ}
    (h : s.step (.turn p killed) = s₁.finish p v) (hreturned : s₁.returned = s.returned)
    (hv : v = BitVec.ofInt 32 r) :
    ∃ k, Follows p t s.returned (run Console.System.step s (List.replicate k (.turn p killed)))
      ((s₁.input, .ret r) : Console.Input × Outcome κ) := by
  refine ⟨1, ?_⟩
  rw [List.replicate_one, run_cons, run_nil, h, ← hreturned, hv]
  exact ⟨rfl, Function.update_self .., rfl⟩

/-- The loop of a pass is so many turns of the loop of `ConsoleLine`. -/
theorem consolereadLoop_turns (killed : Bool) (ht : t < 2 ^ 31) (hn : n ≤ t) (s : Console.System ι)
    (hp : s.reader p = some ⟨BitVec.ofNat 32 t, BitVec.ofNat 32 n⟩) :
    ∃ k, Follows p t s.returned (run Console.System.step s (List.replicate k (.turn p killed)))
      (consolereadLoop killed t n s.input : Console.Input × Outcome κ) := by
  induction n generalizing s with
  | zero =>
    have hstep : s.step (.turn p killed) =
        s.finish p (BitVec.ofNat 32 t - BitVec.ofNat 32 0) := by
      rw [Console.System.step, hp]
      rfl
    refine follows_finish hstep rfl ?_
    rw [ofNat_sub, Nat.cast_zero, sub_zero]
  | succ n ih =>
    have hstep : s.step (.turn p killed) =
        s.turn p killed ⟨BitVec.ofNat 32 t, BitVec.ofNat 32 (n + 1)⟩ := by
      rw [Console.System.step, hp]
    have hpos : (BitVec.ofNat 32 (n + 1)).toInt > 0 := by
      rw [ByteWords.toInt_ofNat (by omega)]
      omega
    have hone : BitVec.ofNat 32 (n + 1) - 1 = BitVec.ofNat 32 n := by
      rw [BitVec.ofNat_add]
      exact BitVec.add_sub_cancel _ _
    have hret := ofNat_sub t (n + 1)
    rw [Nat.cast_succ] at hret
    rw [Console.System.turn, if_pos hpos] at hstep
    rw [consolereadLoop]
    by_cases hread : s.input.readable
    · rw [if_neg hread] at hstep
      rw [if_pos hread]
      dsimp only at hstep
      split_ifs at hstep ⊢ with hd hword hint hint hnl
      · obtain ⟨k, hk⟩ := follows_finish (t := t) (κ := κ) hstep rfl hret
        have hback : (s.putBack s.input.take.2).input = s.input :=
          congrArg (fun r => { s.input with r := r }) (BitVec.add_sub_cancel _ _)
        exact ⟨k, hback ▸ hk⟩
      · bv_omega
      · bv_omega
      · exact follows_finish hstep rfl hret
      · exact follows_finish hstep rfl (by rw [hone, ofNat_sub])
      · obtain ⟨k, hk⟩ := ih (by omega) (s.step (.turn p killed)) (by
          rw [hstep, ← hone]
          exact Function.update_self ..)
        refine ⟨k + 1, ?_⟩
        rw [List.replicate_succ, run_cons]
        rw [hstep] at hk ⊢
        exact hk
    · rw [if_pos (not_not.mp hread)] at hstep
      rw [if_neg hread]
      split_ifs at hstep ⊢
      · exact follows_finish hstep rfl rfl
      · exact ⟨0, rfl, rfl, n + 1, by rw [Nat.cast_succ], hp⟩

end Turns

inductive Pc (κ : Type)
  | returned (r : ℤ)
  | running (c : Call κ)
  | asleep (c : Call κ)

/-- The process; `doomed` says that in this call `kill` has found it asleep and made it
runnable. -/
structure State (κ ι : Type) where
  world : World κ ι
  pc : Pc κ
  killed : Bool
  doomed : Bool

/-- The kernel changes what the loops look at; `wakeup`, by anybody; `kill`; a pass, during which
`late` says whether `kill` comes after the test; a new call. -/
inductive Action (κ ι : Type)
  | world (w : World κ ι)
  | wakeup
  | kill
  | pass (late : Bool)
  | call (c : Call κ)

section Steps

variable {κ ι : Type} [DecidableEq κ]

def Outcome.pc : Outcome κ → Pc κ
  | .ret r => .returned r
  | .sleep c => .asleep c

def step (s : State κ ι) : Action κ ι → State κ ι
  | .world w => { s with world := w }
  | .wakeup =>
    match s.pc with
    | .asleep c => { s with pc := .running c }
    | _ => s
  | .kill =>
    match s.pc with
    | .asleep c => { s with pc := .running c, killed := true, doomed := true }
    | _ => { s with killed := true }
  | .pass late =>
    match s.pc with
    | .running c =>
      let r := c.pass s.killed s.world
      { s with world := r.1, pc := r.2.pc, killed := s.killed || late }
    | _ => s
  | .call c =>
    match s.pc with
    | .returned _ => { s with pc := .running c, doomed := false }
    | _ => s

def Call.locks : Call κ → Bool
  | .consoleread _ _ | .ilock _ => true
  | _ => false

def Pc.locks : Pc κ → Bool
  | .running c => c.locks
  | _ => false

structure Leaves (s : State κ ι) : Prop where
  awake : s.doomed = true → ∀ c, s.pc ≠ .asleep c
  next : s.doomed = true → ∀ c, s.pc = .running c → ∀ w : World κ ι,
    (c.locks = true → w.busy = false) → ∃ r, (c.pass s.killed w).2 = .ret r

end Steps

section Leaving

variable {κ ι : Type}

def Call.isSelect : Call κ → Bool
  | .select _ _ => true
  | _ => false

theorem pipewriteLoop_ret (k : κ) (addr : ℕ → Byte) (n : ℤ) (left i : ℕ) (P : Ipc.Pipe ι) :
    ∃ r, (pipewriteLoop true k addr n left i P).2 = .ret r := by
  induction left generalizing i P with
  | zero => exact ⟨n, rfl⟩
  | succ left ih =>
    unfold pipewriteLoop
    split_ifs with hfull hopen
    · exact ⟨-1, rfl⟩
    · exact absurd (.inr rfl) hopen
    · exact ih (i + 1) _

theorem consolereadLoop_ret (target : ℤ) (n : ℕ) (I : Console.Input) :
    ∃ r, (consolereadLoop true target n I : Console.Input × Outcome κ).2 = .ret r := by
  induction n generalizing I with
  | zero => exact ⟨target, rfl⟩
  | succ n ih =>
    simp only [consolereadLoop, if_true]
    split
    · split
      · exact ⟨_, rfl⟩
      · split
        · exact ⟨_, rfl⟩
        · exact ih _
    · exact ⟨-1, rfl⟩

variable {c : Call κ} {killed : Bool}

theorem pipewriteLoop_isSelect {k : κ} {addr : ℕ → Byte} {n : ℤ} {left i : ℕ}
    {P : Ipc.Pipe ι} (h : (pipewriteLoop killed k addr n left i P).2 = .sleep c) :
    c.isSelect = false := by
  induction left generalizing i P with
  | zero => cases h
  | succ left ih =>
    simp only [pipewriteLoop] at h
    split_ifs at h
    · rw [← Outcome.sleep.inj h]
      rfl
    · exact ih h

theorem consolereadLoop_isSelect {target : ℤ} {n : ℕ} {I : Console.Input}
    (h : (consolereadLoop killed target n I).2 = .sleep c) : c.isSelect = false := by
  induction n generalizing I with
  | zero => cases h
  | succ n ih =>
    simp only [consolereadLoop] at h
    split at h
    · split at h
      · cases h
      · split at h
        · cases h
        · exact ih h
    · split at h
      · cases h
      · rw [← Outcome.sleep.inj h]
        rfl

variable {w : World κ ι}

theorem ilockPass_ret (r : ℤ) (h : w.busy = false) : (ilockPass r w).2 = .ret r := by
  rw [ilockPass, if_neg (by simp [h])]

theorem ilockPass_isSelect {r : ℤ} (h : (ilockPass r w).2 = .sleep c) : c.isSelect = false := by
  rw [ilockPass] at h
  split_ifs at h
  rw [← Outcome.sleep.inj h]
  rfl

variable [DecidableEq κ]

theorem pass_ret (hc : c.isSelect = false) (hw : c.locks = true → w.busy = false) :
    ∃ r, (c.pass true w).2 = .ret r := by
  cases c with
  | wait =>
    simp only [Call.pass, waitPass]
    split
    · exact ⟨_, rfl⟩
    · exact ⟨-1, by simp⟩
  | sleep ticks0 n =>
    simp only [Call.pass, sleepPass, if_true]
    split
    · exact ⟨-1, rfl⟩
    · exact ⟨0, rfl⟩
  | piperead k n =>
    simp only [Call.pass, pipereadPass, if_true]
    split
    · exact ⟨-1, rfl⟩
    · exact ⟨_, rfl⟩
  | pipewrite k addr n i => exact pipewriteLoop_ret k addr n _ i (w.pipes k)
  | consoleread n target =>
    simp only [Call.pass, consolereadPass]
    split
    · obtain ⟨r, hr⟩ := consolereadLoop_ret (κ := κ) target n.toNat w.input
      rw [hr]
      exact ⟨r, ilockPass_ret r (hw rfl)⟩
    · exact ⟨_, ilockPass_ret _ (hw rfl)⟩
  | ilock r => exact ⟨r, ilockPass_ret r (hw rfl)⟩
  | select a ofile => exact Bool.noConfusion hc

theorem pass_isSelect {c' : Call κ} (hc : c.isSelect = false)
    (h : (c.pass killed w).2 = .sleep c') : c'.isSelect = false := by
  cases c with
  | wait =>
    simp only [Call.pass, waitPass] at h
    split at h
    · cases h
    · split at h
      · cases h
      · rw [← Outcome.sleep.inj h]
        rfl
  | sleep ticks0 n =>
    simp only [Call.pass, sleepPass] at h
    split_ifs at h
    rw [← Outcome.sleep.inj h]
    rfl
  | piperead k n =>
    simp only [Call.pass, pipereadPass] at h
    split_ifs at h
    rw [← Outcome.sleep.inj h]
    rfl
  | pipewrite k addr n i => exact pipewriteLoop_isSelect h
  | consoleread n target =>
    simp only [Call.pass, consolereadPass] at h
    split at h
    · split at h
      · exact ilockPass_isSelect h
      · next c₁ hloop => exact Outcome.sleep.inj h ▸ consolereadLoop_isSelect hloop
    · exact ilockPass_isSelect h
  | ilock r => exact ilockPass_isSelect h
  | select a ofile => exact Bool.noConfusion hc

def Pc.isSelect : Pc κ → Bool
  | .returned _ => false
  | .running c | .asleep c => c.isSelect

structure Sound (s : State κ ι) : Prop where
  isSelect : s.pc.isSelect = false
  killed : s.doomed = true → s.killed = true
  awake : s.doomed = true → ∀ c, s.pc ≠ .asleep c

/-- No call of `select`, and a killed process that has to lock the console's inode finds it
unlocked. -/
def Ordinary (s : State κ ι) : Action κ ι → Prop
  | .call c => c.isSelect = false
  | .pass _ => s.doomed = true → s.pc.locks = true → s.world.busy = false
  | _ => True

variable {s : State κ ι}

theorem Sound.pass (h : Sound s) (hpc : s.pc = .running c)
    (hbusy : s.doomed = true → c.locks = true → s.world.busy = false) (late : Bool) :
    Sound (step s (.pass late)) := by
  have hc : c.isSelect = false := by
    have hselect := h.isSelect
    rwa [hpc] at hselect
  simp only [step, hpc]
  constructor
  · cases ho : (c.pass s.killed s.world).2 with
    | ret r => rfl
    | sleep c' => exact pass_isSelect hc ho
  · intro hdoomed
    rw [h.killed hdoomed]
    rfl
  · intro hdoomed c'
    obtain ⟨r, hr⟩ := pass_ret hc (hbusy hdoomed)
    rw [← h.killed hdoomed] at hr
    rw [hr]
    simp [Outcome.pc]

theorem Sound.step (h : Sound s) {act : Action κ ι} (hact : Ordinary s act) :
    Sound (step s act) := by
  cases act with
  | world w => exact ⟨h.isSelect, h.killed, h.awake⟩
  | wakeup =>
    simp only [KilledWaits.step]
    split
    · next c hpc =>
      have hselect := h.isSelect
      rw [hpc] at hselect
      exact ⟨hselect, h.killed, by simp⟩
    · exact h
  | kill =>
    simp only [KilledWaits.step]
    split
    · next c hpc =>
      have hselect := h.isSelect
      rw [hpc] at hselect
      exact ⟨hselect, fun _ => rfl, by simp⟩
    · exact ⟨h.isSelect, fun _ => rfl, h.awake⟩
  | pass late =>
    cases hpc : s.pc with
    | running c =>
      simp only [Ordinary, hpc] at hact
      exact h.pass hpc hact late
    | returned r =>
      simp only [KilledWaits.step, hpc]
      exact h
    | asleep c =>
      simp only [KilledWaits.step, hpc]
      exact h
  | call c =>
    simp only [KilledWaits.step]
    split
    · exact ⟨hact, by simp, by simp⟩
    · exact h

theorem Sound.leaves (h : Sound s) : Leaves s where
  awake := h.awake
  next hdoomed c hpc w hw := by
    have hselect := h.isSelect
    rw [hpc] at hselect
    rw [h.killed hdoomed]
    exact pass_ret hselect hw

/-- A process that is killed in one of these waits leaves it, if it is not in `sys_select` and does
not find the console's inode locked. -/
theorem always_leaves (w : World κ ι) (r : ℤ) (killed : Bool) {acts : List (Action κ ι)}
    (hacts : Along step Ordinary ⟨w, .returned r, killed, false⟩ acts) :
    Always step Leaves ⟨w, .returned r, killed, false⟩ acts :=
  hacts.always ⟨rfl, by simp, by simp⟩ (fun _ _ h hact => Sound.step h hact) fun _ h => h.leaves

end Leaving

def nothing : World Unit Unit where
  table := []
  ticks := 0
  pipes _ := .fresh (fun _ => 0) ⟨fun _ => none, fun _ => none, 0⟩ ⟨fun _ => none, fun _ => none, 0⟩
  input := ⟨fun _ => 0, 0, 0, 0⟩
  busy := false

def killedIn (c : Call Unit) : List (Action Unit Unit) :=
  [.call c, .pass false, .kill, .pass false]

theorem always_leaves_consoleread :
    Along step Ordinary ⟨nothing, .returned 0, false, false⟩
      (killedIn (.consoleread 1 1)) ∧
    Always step Leaves ⟨nothing, .returned 0, false, false⟩ (killedIn (.consoleread 1 1)) := by
  have hacts : Along step Ordinary (⟨nothing, .returned 0, false, false⟩ : State Unit Unit)
      (killedIn (.consoleread 1 1)) :=
    ⟨rfl, fun _ _ => rfl, trivial, fun _ _ => rfl, trivial⟩
  exact ⟨hacts, always_leaves nothing 0 false hacts⟩

/-- A killed `select` on an empty pipe sleeps again. -/
theorem not_leaves_select : ¬ Always step Leaves ⟨nothing, .returned 0, false, false⟩
    (killedIn (.select ⟨1, 1, 0⟩ fun _ => .file (.pipe ()))) := by
  intro h
  exact (h _ List.prefix_rfl).awake rfl (.select ⟨1, 1, 0⟩ fun _ => .file (.pipe ())) rfl

end Xv6Prng.KilledWaits
