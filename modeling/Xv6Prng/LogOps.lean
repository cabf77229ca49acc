import Xv6Prng.Library.Runs
import Xv6Prng.Log

/-!
# The log shared by many operations

Any number of processes call `begin_op`, `log_write` and `end_op`, each `log_write` between
the other two. What is done under `log.lock` is one step. `log_write` reads `log.lh.n` twice
and `log.outstanding` once before it takes the lock, and `commit` runs without it: each of
those accesses is a step of its own, so that other processes can come between.

The entries of `log.lh.block` are a list without a bound, which is what the array and the
memory behind it hold.

The ghost `logged` collects the blocks passed to `log_write` since `log.lh.n` was last
cleared, `written` the blocks that `write_log` has written, and `mine` of a process those
that its operation has logged.
-/

namespace Xv6Prng.Fs.LogOps

open Runs

/-- What `log_write` does next: its three tests, then the part under the lock. -/
inductive Stage
  | logsize
  | size
  | outstanding
  | append
  deriving DecidableEq

/-- Where `commit` is; `finish` is the rest of `end_op` after it. -/
inductive Phase
  | start
  | writeLog (tail : ℕ)
  | writeHead
  | installTrans (tail : ℕ)
  | clear
  | eraseHead
  | finish
  deriving DecidableEq

inductive Pc
  | idle
  | beginOp (asleep : Bool)
  | op (mine : Finset Word)
  | logWrite (mine : Finset Word) (b : Word) (stage : Stage)
  | commit (phase : Phase)
  deriving DecidableEq

structure System (n : ℕ) where
  lh : List Word
  outstanding : ℕ
  committing : Bool
  procs : Fin n → Pc
  panic : Option String
  logged : Finset Word
  written : List ℕ

def System.initial (n : ℕ) : System n where
  lh := []
  outstanding := 0
  committing := false
  procs _ := .idle
  panic := none
  logged := ∅
  written := []

inductive Action (n : ℕ)
  | beginOp (p : Fin n)
  | logWrite (p : Fin n) (b : Word)
  | endOp (p : Fin n)
  | step (p : Fin n)

def Pc.wake : Pc → Pc
  | .beginOp _ => .beginOp false
  | pc => pc

namespace System

variable {n : ℕ} (L : Log) (s : System n) (p : Fin n)

def move (pc : Pc) : System n := { s with procs := Function.update s.procs p pc }

def wakeup : System n := { s with procs := fun q => (s.procs q).wake }

def stop (msg : String) : System n := { s with panic := some msg }

def tryBegin : System n :=
  if s.committing then s.move p (.beginOp true)
  else if s.lh.length + (s.outstanding + 1) * MAXOPBLOCKS > LOGSIZE then s.move p (.beginOp true)
  else { s.move p (.op ∅) with outstanding := s.outstanding + 1 }

def endOp : System n :=
  let s := { s with outstanding := s.outstanding - 1 }
  if s.committing then s.stop "log.committing"
  else if s.outstanding = 0 then { s.move p (.commit .start) with committing := true }
  else (s.move p .idle).wakeup

def stepLogWrite (mine : Finset Word) (b : Word) : Stage → System n
  | .logsize =>
    if s.lh.length ≥ LOGSIZE then s.stop "too big a transaction"
    else s.move p (.logWrite mine b .size)
  | .size =>
    if s.lh.length ≥ L.size - 1 then s.stop "too big a transaction"
    else s.move p (.logWrite mine b .outstanding)
  | .outstanding =>
    if s.outstanding < 1 then s.stop "log_write outside of trans"
    else s.move p (.logWrite mine b .append)
  | .append =>
    { s.move p (.op (insert b mine)) with
      lh := if b ∈ s.lh then s.lh else s.lh ++ [b]
      logged := insert b s.logged }

def stepCommit : Phase → System n
  | .start => s.move p (.commit (if s.lh.length > 0 then .writeLog 0 else .finish))
  | .writeLog tail =>
    if tail < s.lh.length then
      { s.move p (.commit (.writeLog (tail + 1))) with
        written := (L.start.toNat + tail + 1) :: s.written }
    else s.move p (.commit .writeHead)
  | .writeHead => s.move p (.commit (.installTrans 0))
  | .installTrans tail =>
    s.move p (.commit (if tail < s.lh.length then .installTrans (tail + 1) else .clear))
  | .clear => { s.move p (.commit .eraseHead) with lh := [], logged := ∅ }
  | .eraseHead => s.move p (.commit .finish)
  | .finish => { (s.move p .idle).wakeup with committing := false }

def stepProc : System n :=
  match s.procs p with
  | .beginOp false => s.tryBegin p
  | .logWrite mine b stage => s.stepLogWrite L p mine b stage
  | .commit phase => s.stepCommit L p phase
  | _ => s

def act : Action n → System n
  | .beginOp p => if s.procs p = .idle then s.move p (.beginOp false) else s
  | .logWrite p b =>
    match s.procs p with
    | .op mine => s.move p (.logWrite mine b .logsize)
    | _ => s
  | .endOp p =>
    match s.procs p with
    | .op _ => s.endOp p
    | _ => s
  | .step p => s.stepProc L p

end System

def step {n : ℕ} (L : Log) (s : System n) (a : Action n) : System n :=
  if s.panic.isSome then s else s.act L a

namespace Pc

def inOp : Pc → ℕ
  | .op _ | .logWrite _ _ _ => 1
  | _ => 0

def inCommit : Pc → ℕ
  | .commit _ => 1
  | _ => 0

def mine : Pc → Finset Word
  | .op mine | .logWrite mine _ _ => mine
  | _ => ∅

def inLogWrite : Pc → Prop
  | .logWrite _ _ _ => True
  | _ => False

def cleared : Pc → Prop
  | .commit .eraseHead | .commit .finish => True
  | _ => False

theorem inOp_wake (pc : Pc) : pc.wake.inOp = pc.inOp := by cases pc <;> rfl

theorem inCommit_wake (pc : Pc) : pc.wake.inCommit = pc.inCommit := by cases pc <;> rfl

theorem mine_wake (pc : Pc) : pc.wake.mine = pc.mine := by cases pc <;> rfl

theorem cleared_wake (pc : Pc) : pc.wake.cleared ↔ pc.cleared := by cases pc <;> exact Iff.rfl

theorem inCommit_of_cleared {pc : Pc} (h : pc.cleared) : pc.inCommit = 1 := by
  cases pc with
  | commit phase => rfl
  | _ => exact h.elim

end Pc

section Counting

variable {n : ℕ} {s : System n} {p : Fin n} {pc : Pc}

theorem move_self : (s.move p pc).procs p = pc := Function.update_self ..

theorem move_of_ne {q : Fin n} (h : q ≠ p) : (s.move p pc).procs q = s.procs q :=
  Function.update_of_ne h ..

def System.ops (s : System n) : ℕ := ∑ p, (s.procs p).inOp

def System.commits (s : System n) : ℕ := ∑ p, (s.procs p).inCommit

theorem ops_move (s : System n) (p : Fin n) (pc : Pc) :
    (s.move p pc).ops + (s.procs p).inOp = s.ops + pc.inOp :=
  sum_update Pc.inOp s.procs p pc

theorem commits_move (s : System n) (p : Fin n) (pc : Pc) :
    (s.move p pc).commits + (s.procs p).inCommit = s.commits + pc.inCommit :=
  sum_update Pc.inCommit s.procs p pc

theorem ops_wakeup : s.wakeup.ops = s.ops :=
  Finset.sum_congr rfl fun q _ => (s.procs q).inOp_wake

theorem commits_wakeup : s.wakeup.commits = s.commits :=
  Finset.sum_congr rfl fun q _ => (s.procs q).inCommit_wake

theorem inOp_le_ops (p : Fin n) : (s.procs p).inOp ≤ s.ops := le_sum Pc.inOp s.procs p

theorem inCommit_le_commits (p : Fin n) : (s.procs p).inCommit ≤ s.commits :=
  le_sum Pc.inCommit s.procs p

theorem eq_of_inCommit (h : s.commits ≤ 1) {p q : Fin n} (hp : (s.procs p).inCommit = 1)
    (hq : (s.procs q).inCommit = 1) : p = q := by
  by_contra hne
  -- without `p` nobody is left in `commit`
  have hidle := commits_move s p .idle
  have hle := inCommit_le_commits (s := s.move p .idle) q
  rw [move_of_ne (Ne.symm hne), hq] at hle
  rw [hp] at hidle
  simp only [Pc.inCommit] at hidle
  omega

end Counting

variable {mine : Finset Word}

section Sound

variable {n : ℕ}

structure Sound (s : System n) : Prop where
  outstanding : s.outstanding = s.ops
  commits : s.commits = if s.committing then 1 else 0
  quiet : s.committing = true → s.ops = 0
  empty : s.committing = false → s.ops = 0 → s.lh = []
  cleared : ∀ p, (s.procs p).cleared → s.lh = []
  nodup : s.lh.Nodup
  logged : s.lh.toFinset = s.logged
  mine : ∀ p, (s.procs p).mine ⊆ s.logged
  panic : s.panic ≠ some "log.committing"

theorem sound_initial : Sound (System.initial n) where
  outstanding := by simp [System.initial, System.ops, Pc.inOp]
  commits := by simp [System.initial, System.commits, Pc.inCommit]
  quiet h := by cases h
  empty _ _ := rfl
  cleared _ h := h.elim
  nodup := List.nodup_nil
  logged := rfl
  mine _ := Finset.empty_subset _
  panic := nofun

variable {L : Log} {s : System n} {p : Fin n}

theorem Sound.committing_of_inCommit (h : Sound s) (hp : (s.procs p).inCommit = 1) :
    s.committing = true := by
  have hle := inCommit_le_commits (s := s) p
  have hc := h.commits
  by_contra hno
  rw [if_neg hno] at hc
  omega

theorem Sound.not_committing_of_inOp (h : Sound s) (hp : (s.procs p).inOp = 1) :
    s.committing = false := by
  have hle := inOp_le_ops (s := s) p
  by_contra hyes
  have hq := h.quiet (by simpa using hyes)
  omega

theorem forall_move {P : Pc → Prop} {pc : Pc} (h : ∀ q, P (s.procs q)) (hpc : P pc) (q : Fin n) :
    P ((s.move p pc).procs q) := by
  by_cases hq : q = p
  · rw [hq, move_self]
    exact hpc
  · rw [move_of_ne hq]
    exact h q

section Sound

variable (h : Sound s)
include h

theorem Sound.move {pc : Pc} (written : List ℕ)
    (hop : pc.inOp = (s.procs p).inOp) (hcommit : pc.inCommit = (s.procs p).inCommit)
    (hmine : pc.mine = (s.procs p).mine) (hcleared : pc.cleared → s.lh = []) :
    Sound { s.move p pc with written := written } := by
  have hops : (s.move p pc).ops = s.ops := by
    have := ops_move s p pc
    omega
  have hcommits : (s.move p pc).commits = s.commits := by
    have := commits_move s p pc
    omega
  refine ⟨h.outstanding.trans hops.symm, hcommits.trans h.commits, ?_, ?_, ?_, h.nodup, h.logged,
    ?_, h.panic⟩
  · exact fun hc => hops.trans (h.quiet hc)
  · exact fun hc ho => h.empty hc (hops.symm.trans ho)
  · exact forall_move (P := fun pc => pc.cleared → s.lh = []) h.cleared hcleared
  · exact forall_move (P := fun pc => pc.mine ⊆ s.logged) h.mine (hmine ▸ h.mine p)

theorem Sound.stop {msg : String} (hmsg : msg ≠ "log.committing") : Sound (s.stop msg) :=
  { h with panic := fun heq => hmsg (Option.some.inj heq) }

theorem Sound.wakeup : Sound s.wakeup := by
  refine ⟨h.outstanding.trans ops_wakeup.symm, commits_wakeup.trans h.commits, ?_, ?_, ?_, h.nodup,
    h.logged, ?_, h.panic⟩
  · exact fun hc => ops_wakeup.trans (h.quiet hc)
  · exact fun hc ho => h.empty hc (ops_wakeup.symm.trans ho)
  · exact fun q hq => h.cleared q ((s.procs q).cleared_wake.mp hq)
  · exact fun q => (s.procs q).mine_wake ▸ h.mine q

theorem Sound.tryBegin (hp : s.procs p = .beginOp false) : Sound (s.tryBegin p) := by
  have hsleep : Sound (s.move p (.beginOp true)) :=
    h.move s.written (by rw [hp]; rfl) (by rw [hp]; rfl) (by rw [hp]; rfl) False.elim
  rw [System.tryBegin]
  split_ifs with hcommitting hfull
  · exact hsleep
  · exact hsleep
  · have hops := ops_move s p (.op ∅)
    have hcommits := commits_move s p (.op ∅)
    rw [hp] at hops hcommits
    have hops' : (s.move p (.op ∅)).ops = s.ops + 1 := hops
    refine ⟨?_, hcommits.trans h.commits, fun hc => absurd hc hcommitting, ?_, ?_, h.nodup,
      h.logged, ?_, h.panic⟩
    · change s.outstanding + 1 = (s.move p (.op ∅)).ops
      rw [hops', h.outstanding]
    · intro _ hzero
      change (s.move p (.op ∅)).ops = 0 at hzero
      omega
    · exact forall_move (P := fun pc => pc.cleared → s.lh = []) h.cleared False.elim
    · exact forall_move (P := fun pc => pc.mine ⊆ s.logged) h.mine (Finset.empty_subset _)

theorem Sound.append {b : Word} (hp : s.procs p = .logWrite mine b .append) :
    Sound (s.stepLogWrite L p mine b .append) := by
  have hop : (s.procs p).inOp = 1 := by rw [hp]; rfl
  have hopen := h.not_committing_of_inOp hop
  have hops : (s.move p (.op (insert b mine))).ops = s.ops := by
    have hmove := ops_move s p (.op (insert b mine))
    rw [hp] at hmove
    exact Nat.add_right_cancel hmove
  have hcommits : (s.move p (.op (insert b mine))).commits = s.commits := by
    have hmove := commits_move s p (.op (insert b mine))
    rw [hp] at hmove
    exact hmove
  have hpos := inOp_le_ops (s := s) p
  refine ⟨h.outstanding.trans hops.symm, hcommits.trans h.commits, ?_, ?_, ?_, ?_, ?_, ?_, h.panic⟩
  · exact fun hc => absurd (hopen.symm.trans hc) Bool.false_ne_true
  · intro _ hzero
    change (s.move p (.op (insert b mine))).ops = 0 at hzero
    omega
  · -- a process that has cleared the log would be in `commit`
    refine forall_move (P := fun pc => pc.cleared → _) (fun q hq => ?_) False.elim
    have hc := h.committing_of_inCommit (Pc.inCommit_of_cleared hq)
    exact absurd (hopen.symm.trans hc) Bool.false_ne_true
  · change (if b ∈ s.lh then s.lh else s.lh ++ [b]).Nodup
    split_ifs with hb
    · exact h.nodup
    · exact List.concat_eq_append ▸ h.nodup.concat hb
  · change (if b ∈ s.lh then s.lh else s.lh ++ [b]).toFinset = insert b s.logged
    rw [← h.logged]
    split_ifs with hb
    · rw [Finset.insert_eq_of_mem (List.mem_toFinset.mpr hb)]
    · ext c
      simp
  · have hmine := h.mine p
    rw [hp] at hmine
    exact forall_move (P := fun pc => pc.mine ⊆ insert b s.logged)
      (fun q => (h.mine q).trans (Finset.subset_insert _ _)) (Finset.insert_subset_insert b hmine)

theorem Sound.stepLogWrite {b : Word} {stage : Stage}
    (hp : s.procs p = .logWrite mine b stage) : Sound (s.stepLogWrite L p mine b stage) := by
  have hmove (stage' : Stage) : Sound (s.move p (.logWrite mine b stage')) :=
    h.move s.written (by rw [hp]; rfl) (by rw [hp]; rfl) (by rw [hp]; rfl) False.elim
  cases stage with
  | logsize =>
    rw [System.stepLogWrite]
    split_ifs
    · exact h.stop (by decide)
    · exact hmove _
  | size =>
    rw [System.stepLogWrite]
    split_ifs
    · exact h.stop (by decide)
    · exact hmove _
  | outstanding =>
    rw [System.stepLogWrite]
    split_ifs
    · exact h.stop (by decide)
    · exact hmove _
  | append => exact h.append hp

theorem Sound.endOp (hp : s.procs p = .op mine) : Sound (s.endOp p) := by
  have hop : (s.procs p).inOp = 1 := by rw [hp]; rfl
  have hopen := h.not_committing_of_inOp hop
  have hpos := inOp_le_ops (s := s) p
  have hout := h.outstanding
  have hcommits := h.commits
  rw [hopen] at hcommits
  have hclosed (q : Fin n) : ¬ (s.procs q).cleared := fun hq => by
    have hc := h.committing_of_inCommit (Pc.inCommit_of_cleared hq)
    exact absurd (hopen.symm.trans hc) Bool.false_ne_true
  rw [System.endOp]
  simp only [hopen, Bool.false_eq_true, if_false]
  split_ifs with hlast
  · have hops := ops_move s p (.commit .start)
    have hin := commits_move s p (.commit .start)
    rw [hp] at hops hin
    simp only [Pc.inOp, Pc.inCommit] at hops hin
    have hzero : (s.move p (.commit .start)).ops = 0 := by omega
    refine ⟨hlast.trans hzero.symm, ?_, fun _ => hzero, nofun, ?_, h.nodup, h.logged, ?_, h.panic⟩
    · change (s.move p (.commit .start)).commits = 1
      simpa [hcommits] using hin
    · exact forall_move (P := fun pc => pc.cleared → s.lh = []) h.cleared False.elim
    · exact forall_move (P := fun pc => pc.mine ⊆ s.logged) h.mine (Finset.empty_subset _)
  · have hops := ops_move s p .idle
    have hin := commits_move s p .idle
    rw [hp] at hops hin
    simp only [Pc.inOp, Pc.inCommit] at hops hin
    apply Sound.wakeup
    refine ⟨?_, ?_, fun hc => ?_, fun _ hzero => ?_, ?_, h.nodup, h.logged, ?_, h.panic⟩
    · change s.outstanding - 1 = (s.move p .idle).ops
      omega
    · exact hin.trans hcommits
    · cases hc
    · change (s.move p .idle).ops = 0 at hzero
      omega
    · exact forall_move (P := fun pc => pc.cleared → s.lh = []) h.cleared False.elim
    · exact forall_move (P := fun pc => pc.mine ⊆ s.logged) h.mine (Finset.empty_subset _)

theorem Sound.stepCommit {phase : Phase} (hp : s.procs p = .commit phase) :
    Sound (s.stepCommit L p phase) := by
  have hin : (s.procs p).inCommit = 1 := by rw [hp]; rfl
  have hcommitting := h.committing_of_inCommit hin
  have hmove (phase' : Phase) (written : List ℕ) (hc : (Pc.commit phase').cleared → s.lh = []) :
      Sound { s.move p (.commit phase') with written := written } :=
    h.move written (by rw [hp]; rfl) (by rw [hp]; rfl) (by rw [hp]; rfl) hc
  cases phase with
  | start =>
    refine hmove _ s.written fun hc => ?_
    split_ifs at hc with hlen
    · exact hc.elim
    · exact List.eq_nil_of_length_eq_zero (by omega)
  | writeLog tail =>
    rw [System.stepCommit]
    split_ifs
    · exact hmove _ _ False.elim
    · exact hmove _ s.written False.elim
  | writeHead => exact hmove _ s.written False.elim
  | installTrans tail =>
    refine hmove _ s.written fun hc => ?_
    split_ifs at hc
    · exact hc.elim
    · exact hc.elim
  | clear =>
    have hops := ops_move s p (.commit .eraseHead)
    have hcommits := commits_move s p (.commit .eraseHead)
    rw [hp] at hops hcommits
    have hops' : (s.move p (.commit .eraseHead)).ops = s.ops := hops
    have hcommits' : (s.move p (.commit .eraseHead)).commits = s.commits :=
      Nat.add_right_cancel hcommits
    refine ⟨h.outstanding.trans hops'.symm, hcommits'.trans h.commits, ?_, fun _ _ => rfl,
      fun _ _ => rfl, List.nodup_nil, rfl, fun q => ?_, h.panic⟩
    · exact fun hc => hops'.trans (h.quiet hc)
    · -- nobody is in an operation, so nobody has blocks of its own
      have hzero := hops'.trans (h.quiet hcommitting)
      have hq := inOp_le_ops (s := s.move p (.commit .eraseHead)) q
      change ((s.move p (.commit .eraseHead)).procs q).mine ⊆ ∅
      cases hpc : (s.move p (.commit .eraseHead)).procs q with
      | op mine =>
        rw [hpc, hzero] at hq
        exact absurd hq (Nat.not_succ_le_zero 0)
      | logWrite mine b stage =>
        rw [hpc, hzero] at hq
        exact absurd hq (Nat.not_succ_le_zero 0)
      | _ => exact Finset.empty_subset _
  | eraseHead => exact hmove _ s.written fun _ => h.cleared p (by rw [hp]; trivial)
  | finish =>
    have hlh := h.cleared p (by rw [hp]; trivial)
    have hops := ops_move s p .idle
    have hcommits := commits_move s p .idle
    rw [hp] at hops hcommits
    have hops' : (s.move p .idle).ops = s.ops := hops
    have hzero : (s.move p .idle).commits = 0 := by
      have hone := h.commits
      rw [hcommitting, if_pos rfl] at hone
      simp only [Pc.inCommit] at hcommits
      omega
    have hawake : Sound { s.move p .idle with committing := false } := by
      refine ⟨h.outstanding.trans hops'.symm, hzero, nofun, fun _ _ => hlh, fun _ _ => hlh,
        h.nodup, h.logged, ?_, h.panic⟩
      exact forall_move (P := fun pc => pc.mine ⊆ s.logged) h.mine (Finset.empty_subset _)
    exact hawake.wakeup

theorem Sound.step (a : Action n) : Sound (step L s a) := by
  rw [LogOps.step]
  split_ifs
  · exact h
  cases a with
  | beginOp q =>
    simp only [System.act]
    split_ifs with hq
    · exact h.move s.written (by rw [hq]; rfl) (by rw [hq]; rfl) (by rw [hq]; rfl) False.elim
    · exact h
  | logWrite q b =>
    simp only [System.act]
    split
    next mine hq =>
      exact h.move s.written (by rw [hq]; rfl) (by rw [hq]; rfl) (by rw [hq]; rfl) False.elim
    next => exact h
  | endOp q =>
    simp only [System.act]
    split
    next mine hq => exact h.endOp hq
    next => exact h
  | step q =>
    simp only [System.act, System.stepProc]
    split
    next hq => exact h.tryBegin hq
    next mine b stage hq => exact h.stepLogWrite hq
    next phase hq => exact h.stepCommit hq
    next => exact h

end Sound

structure Disciplined (s : System n) : Prop where
  quiet : s.committing = true → s.outstanding = 0
  oneCommit : ∀ p q, (s.procs p).inCommit = 1 → (s.procs q).inCommit = 1 → p = q
  noLogWrite : ∀ p q, (s.procs p).inCommit = 1 → ¬ (s.procs q).inLogWrite
  noPanic : s.panic ≠ some "log.committing"
  distinct : s.lh.Nodup
  exact : ∀ b, b ∈ s.lh ↔ b ∈ s.logged

theorem Sound.disciplined (h : Sound s) : Disciplined s where
  quiet hc := h.outstanding.trans (h.quiet hc)
  oneCommit p q := eq_of_inCommit (by rw [h.commits]; split_ifs <;> decide)
  noLogWrite p q hp hq := by
    have hop : (s.procs q).inOp = 1 := by
      cases hpc : s.procs q with
      | logWrite mine b stage => rfl
      | _ => rw [hpc] at hq; exact hq.elim
    have hc := h.committing_of_inCommit hp
    exact absurd ((h.not_committing_of_inOp hop).symm.trans hc) Bool.false_ne_true
  noPanic := h.panic
  distinct := h.nodup
  exact b := by rw [← h.logged, List.mem_toFinset]

end Sound

section Space

variable {n k : ℕ}

def Pc.mayLog (k : ℕ) (b : Word) : Pc → Prop
  | .op mine => (insert b mine).card ≤ k
  | _ => True

instance (b : Word) : ∀ pc : Pc, Decidable (pc.mayLog k b)
  | .op _ => inferInstanceAs (Decidable (_ ≤ _))
  | .idle | .beginOp _ | .logWrite _ _ _ | .commit _ => inferInstanceAs (Decidable True)

def Within (k : ℕ) (s : System n) : Action n → Prop
  | .logWrite p b => (s.procs p).mayLog k b
  | _ => True

instance (s : System n) : ∀ a : Action n, Decidable (Within k s a)
  | .logWrite p b => inferInstanceAs (Decidable ((s.procs p).mayLog k b))
  | .beginOp _ | .endOp _ | .step _ => inferInstanceAs (Decidable True)

def Pc.spare (k : ℕ) : Pc → ℕ
  | .op mine | .logWrite mine _ _ => k - mine.card
  | _ => 0

def Pc.within (k : ℕ) : Pc → Prop
  | .op mine => mine.card ≤ k
  | .logWrite mine b _ => (insert b mine).card ≤ k
  | _ => True

theorem Pc.spare_wake (pc : Pc) : pc.wake.spare k = pc.spare k := by cases pc <;> rfl

theorem Pc.within_wake (pc : Pc) : pc.wake.within k ↔ pc.within k := by cases pc <;> exact Iff.rfl

theorem Pc.spare_le (pc : Pc) : pc.spare k ≤ pc.inOp * k := by
  cases pc with
  | op mine => simp [spare, inOp]
  | logWrite mine b stage => simp [spare, inOp]
  | _ => simp [spare]

def System.spare (k : ℕ) (s : System n) : ℕ := ∑ p, (s.procs p).spare k

/-- At most `2 * k + MAXOPBLOCKS` blocks are logged or still to be logged: three operations
are let in only while the log is empty, two only while it holds at most ten blocks. -/
structure Reserved (L : Log) (k : ℕ) (s : System n) : Prop where
  sound : Sound s
  space : s.lh.length + s.spare k ≤ 2 * k + MAXOPBLOCKS
  within : ∀ p, (s.procs p).within k
  panic : s.panic = some "too big a transaction" → L.size - 1 ≤ 2 * k + MAXOPBLOCKS ∨
    LOGSIZE ≤ 2 * k + MAXOPBLOCKS
  written : ∀ w ∈ s.written, L.start.toNat ≤ w ∧ w ≤ L.start.toNat + (2 * k + MAXOPBLOCKS)

variable {L : Log} {s : System n} {p : Fin n}

theorem spare_move (k : ℕ) (s : System n) (p : Fin n) (pc : Pc) :
    (s.move p pc).spare k + (s.procs p).spare k = s.spare k + pc.spare k :=
  sum_update (Pc.spare k) s.procs p pc

theorem spare_wakeup : s.wakeup.spare k = s.spare k :=
  Finset.sum_congr rfl fun q _ => (s.procs q).spare_wake

theorem spare_le_ops : s.spare k ≤ s.ops * k := by
  rw [System.spare, System.ops, Finset.sum_mul]
  exact Finset.sum_le_sum fun q _ => (s.procs q).spare_le

theorem Reserved.length_le (h : Reserved L k s) : s.lh.length ≤ 2 * k + MAXOPBLOCKS :=
  Nat.le_of_add_right_le h.space

theorem reserved_initial : Reserved L k (System.initial n) where
  sound := sound_initial
  space := by simp [System.initial, System.spare, Pc.spare]
  within _ := trivial
  panic := nofun
  written := nofun

section Reserved

variable (h : Reserved L k s)
include h

theorem Reserved.move {s' : System n} {pc : Pc} (hsound : Sound s')
    (hprocs : s'.procs = (s.move p pc).procs)
    (hspace : s'.lh.length + (s.spare k + pc.spare k) ≤
      2 * k + MAXOPBLOCKS + (s.procs p).spare k)
    (hwithin : pc.within k) (hpanic : s'.panic = s.panic)
    (hwritten : ∀ w ∈ s'.written, L.start.toNat ≤ w ∧
      w ≤ L.start.toNat + (2 * k + MAXOPBLOCKS)) :
    Reserved L k s' := by
  refine ⟨hsound, ?_, fun q => ?_, fun hp => h.panic (hpanic ▸ hp), hwritten⟩
  · have hspare : s'.spare k = (s.move p pc).spare k := by rw [System.spare, hprocs]; rfl
    have hmove := spare_move k s p pc
    omega
  · rw [hprocs]
    exact forall_move h.within hwithin q

theorem Reserved.leave {s' : System n} (hsound : Sound s')
    (hprocs : s'.procs = (s.move p .idle).wakeup.procs) (hlh : s'.lh = s.lh)
    (hpanic : s'.panic = s.panic) (hwritten : s'.written = s.written) : Reserved L k s' := by
  refine ⟨hsound, ?_, fun q => ?_, fun hp => h.panic (hpanic ▸ hp), hwritten ▸ h.written⟩
  · have hspare : s'.spare k = (s.move p .idle).wakeup.spare k := by
      rw [System.spare, hprocs]
      rfl
    have hmove := spare_move k s p .idle
    have hspace := h.space
    simp only [Pc.spare] at hmove
    rw [hspare, spare_wakeup, hlh]
    omega
  · rw [hprocs]
    have hq := forall_move (p := p) h.within (show Pc.within k .idle from trivial) q
    exact (Pc.within_wake _).mpr hq

theorem Reserved.stop {msg : String} (hsound : Sound (s.stop msg))
    (hmsg : msg = "too big a transaction" → L.size - 1 ≤ 2 * k + MAXOPBLOCKS ∨
      LOGSIZE ≤ 2 * k + MAXOPBLOCKS) : Reserved L k (s.stop msg) :=
  { h with sound := hsound, panic := fun heq => hmsg (Option.some.inj heq) }

theorem Reserved.tryBegin (hk : k ≤ MAXOPBLOCKS)
    (hp : s.procs p = .beginOp false) : Reserved L k (s.tryBegin p) := by
  have hsound := h.sound.tryBegin hp
  have hsleep (hs : Sound (s.move p (.beginOp true))) : Reserved L k (s.move p (.beginOp true)) :=
    h.move hs rfl (h.space.trans (Nat.le_add_right _ _)) trivial rfl h.written
  rw [System.tryBegin] at hsound ⊢
  split_ifs at hsound ⊢ with hcommitting hfull
  · exact hsleep hsound
  · exact hsleep hsound
  · refine h.move hsound rfl ?_ (Nat.zero_le k) rfl h.written
    have hspare := spare_le_ops (s := s) (k := k)
    have hidle : s.ops = 0 → s.lh = [] := h.sound.empty (by simpa using hcommitting)
    rw [h.sound.outstanding] at hfull
    change s.lh.length + (s.spare k + (k - 0)) ≤ 2 * k + MAXOPBLOCKS + _
    simp only [MAXOPBLOCKS, LOGSIZE] at hfull hk ⊢
    -- at most two operations are outstanding, and none only if the log is empty
    have hfew : s.ops ≤ 2 := by omega
    interval_cases hops : s.ops
    · rw [hidle rfl]
      simp only [List.length_nil]
      omega
    · omega
    · omega

theorem Reserved.append {b : Word} (hp : s.procs p = .logWrite mine b .append) :
    Reserved L k (s.stepLogWrite L p mine b .append) := by
  have hwithin := h.within p
  have hmine := h.sound.mine p
  have hspace := h.space
  rw [hp] at hwithin hmine
  refine h.move (h.sound.append hp) rfl ?_ hwithin rfl h.written
  rw [hp]
  change (if b ∈ s.lh then s.lh else s.lh ++ [b]).length + (s.spare k + (k - (insert b mine).card)) ≤
    2 * k + MAXOPBLOCKS + (k - mine.card)
  split_ifs with hb
  · have hcard := Finset.card_le_card (Finset.subset_insert b mine)
    omega
  · -- a block that is new to the log is new to the operation
    have hnew : b ∉ mine := fun hin => by
      have hlogged := hmine hin
      rw [← h.sound.logged, List.mem_toFinset] at hlogged
      exact hb hlogged
    have hcard : (insert b mine).card = mine.card + 1 := Finset.card_insert_of_notMem hnew
    have hle : (insert b mine).card ≤ k := hwithin
    rw [List.length_append, List.length_singleton]
    omega

theorem Reserved.stepLogWrite {b : Word} {stage : Stage}
    (hp : s.procs p = .logWrite mine b stage) : Reserved L k (s.stepLogWrite L p mine b stage) := by
  have hsound := h.sound.stepLogWrite (L := L) hp
  have hlen := h.length_le
  have hwithin := h.within p
  rw [hp] at hwithin
  have hmove (stage' : Stage) (hs : Sound (s.move p (.logWrite mine b stage'))) :
      Reserved L k (s.move p (.logWrite mine b stage')) := by
    refine h.move hs rfl ?_ hwithin rfl h.written
    rw [hp]
    exact (Nat.add_assoc ..).symm.trans_le (Nat.add_le_add_right h.space _)
  cases stage with
  | logsize =>
    rw [System.stepLogWrite] at hsound ⊢
    split_ifs at hsound ⊢ with hfull
    · exact h.stop hsound fun _ => Or.inr (hfull.trans hlen)
    · exact hmove _ hsound
  | size =>
    rw [System.stepLogWrite] at hsound ⊢
    split_ifs at hsound ⊢ with hfull
    · exact h.stop hsound fun _ => Or.inl (hfull.trans hlen)
    · exact hmove _ hsound
  | outstanding =>
    rw [System.stepLogWrite] at hsound ⊢
    split_ifs at hsound ⊢
    · exact h.stop hsound fun heq => absurd heq (by decide)
    · exact hmove _ hsound
  | append => exact h.append hp

theorem Reserved.endOp (hp : s.procs p = .op mine) : Reserved L k (s.endOp p) := by
  have hsound := h.sound.endOp hp
  have hspace := h.space
  have hfree (pc : Pc) (hpc : pc.spare k = 0) : s.lh.length + (s.spare k + pc.spare k) ≤
      2 * k + MAXOPBLOCKS + (s.procs p).spare k := by omega
  have hopen := h.sound.not_committing_of_inOp (p := p) (by rw [hp]; rfl)
  rw [System.endOp] at hsound ⊢
  simp only [hopen, Bool.false_eq_true, if_false] at hsound ⊢
  split_ifs at hsound ⊢
  · exact h.move hsound rfl (hfree _ rfl) trivial rfl h.written
  · exact h.leave hsound rfl rfl rfl rfl

theorem Reserved.stepCommit {phase : Phase}
    (hp : s.procs p = .commit phase) : Reserved L k (s.stepCommit L p phase) := by
  have hsound := h.sound.stepCommit (L := L) hp
  have hspace := h.space
  have hlen := h.length_le
  have hnone (pc : Pc) (lh : List Word) (hlh : lh.length ≤ s.lh.length) (hpc : pc.spare k = 0) :
      lh.length + (s.spare k + pc.spare k) ≤ 2 * k + MAXOPBLOCKS + (s.procs p).spare k := by
    omega
  cases phase with
  | start => exact h.move hsound rfl (hnone _ _ le_rfl rfl) trivial rfl h.written
  | writeLog tail =>
    rw [System.stepCommit] at hsound ⊢
    split_ifs at hsound ⊢ with htail
    · refine h.move hsound rfl (hnone _ _ le_rfl rfl) trivial rfl fun w hw => ?_
      rcases List.mem_cons.mp hw with hnew | hold
      · omega
      · exact h.written w hold
    · exact h.move hsound rfl (hnone _ _ le_rfl rfl) trivial rfl h.written
  | writeHead => exact h.move hsound rfl (hnone _ _ le_rfl rfl) trivial rfl h.written
  | installTrans tail => exact h.move hsound rfl (hnone _ _ le_rfl rfl) trivial rfl h.written
  | clear => exact h.move hsound rfl (hnone _ [] (Nat.zero_le _) rfl) trivial rfl h.written
  | eraseHead => exact h.move hsound rfl (hnone _ _ le_rfl rfl) trivial rfl h.written
  | finish => exact h.leave hsound rfl rfl rfl rfl

theorem Reserved.step (hk : k ≤ MAXOPBLOCKS) {a : Action n}
    (ha : Within k s a) : Reserved L k (step L s a) := by
  have hsound := h.sound.step (L := L) a
  have hspace := h.space
  rw [LogOps.step] at hsound ⊢
  split_ifs at hsound ⊢
  · exact h
  cases a with
  | beginOp q =>
    simp only [System.act] at hsound ⊢
    split_ifs at hsound ⊢ with hq
    · exact h.move hsound rfl (hspace.trans (Nat.le_add_right _ _)) trivial rfl h.written
    · exact h
  | logWrite q b =>
    simp only [System.act, Within] at hsound ha ⊢
    cases hq : s.procs q with
    | op mine =>
      rw [hq] at hsound ha
      refine h.move hsound rfl ?_ ha rfl h.written
      rw [hq]
      exact (Nat.add_assoc ..).symm.trans_le (Nat.add_le_add_right hspace _)
    | _ => exact h
  | endOp q =>
    simp only [System.act]
    split
    next mine hq => exact h.endOp hq
    next => exact h
  | step q =>
    simp only [System.act, System.stepProc]
    split
    next hq => exact h.tryBegin hk hq
    next mine b stage hq => exact h.stepLogWrite hq
    next phase hq => exact h.stepCommit hq
    next => exact h

end Reserved

structure FitsLog (L : Log) (s : System n) : Prop where
  noPanic : s.panic ≠ some "too big a transaction"
  length_le : s.lh.length ≤ L.size - 1
  written : ∀ w ∈ s.written, L.start.toNat ≤ w ∧ w < L.start.toNat + L.size

theorem Reserved.fitsLog (h : Reserved L k s) (hsize : 2 * k + MAXOPBLOCKS < L.size - 1)
    (hk : 2 * k + MAXOPBLOCKS < LOGSIZE) : FitsLog L s where
  noPanic hp := by
    have hfull := h.panic hp
    omega
  length_le := h.length_le.trans hsize.le
  written w hw := by
    have hle := h.written w hw
    omega

theorem length_le_of_within {acts : List (Action n)}
    (h : Along (step L) (Within MAXOPBLOCKS) (System.initial n) acts) :
    Always (step L) (fun s => s.lh.length ≤ LOGSIZE) (System.initial n) acts :=
  h.always reserved_initial (fun _ _ hs ha => hs.step (L := L) le_rfl ha) fun _ hs => hs.length_le

def mkfsLog : Log where
  start := 2
  size := LOGSIZE
  pos := by decide
  fits := by decide

/-- Operations that log one block less than is reserved for them. -/
theorem always_fitsLog {acts : List (Action n)}
    (h : Along (step mkfsLog) (Within (MAXOPBLOCKS - 1)) (System.initial n) acts) :
    Always (step mkfsLog) (FitsLog mkfsLog) (System.initial n) acts :=
  h.always reserved_initial (fun _ _ hs ha => hs.step (L := mkfsLog) (by decide) ha)
    fun _ hs => hs.fitsLog (by decide) (by decide)

def opening (p : Fin n) : List (Action n) := [.beginOp p, .step p]

def logging (p : Fin n) (b : Word) : List (Action n) :=
  [.logWrite p b, .step p, .step p, .step p, .step p]

/-- Three operations that all have begun before one of them logs its `k` blocks. -/
def threeOps (k : ℕ) : List (Action 3) :=
  opening 0 ++ opening 1 ++ opening 2 ++
    (List.finRange 3).flatMap fun p =>
      (List.range k).flatMap fun i => logging p (BitVec.ofNat 32 (100 + 10 * p.val + i))

def threeFull : List (Action 3) := threeOps MAXOPBLOCKS

/-- On a log that is larger than that of `mkfs`. -/
theorem length_le_of_within_threeFull :
    Always (step ⟨2, 40, by decide, by decide⟩) (fun s => s.lh.length ≤ LOGSIZE)
      (System.initial 3) threeFull ∧
    (run (step ⟨2, 40, by decide, by decide⟩) (System.initial 3) threeFull).lh.length = 30 :=
  ⟨length_le_of_within (by decide +kernel), by decide +kernel⟩

theorem always_fitsLog_threeOps :
    Always (step mkfsLog) (FitsLog mkfsLog) (System.initial 3)
      (threeOps 9 ++ [.endOp 0, .endOp 1, .endOp 2]) ∧
    (run (step mkfsLog) (System.initial 3) (threeOps 9)).lh.length = 27 :=
  ⟨always_fitsLog (by decide +kernel), by decide +kernel⟩

theorem not_fitsLog_threeFull :
    Along (step mkfsLog) (Within MAXOPBLOCKS) (System.initial 3) threeFull ∧
      (run (step mkfsLog) (System.initial 3) threeFull).panic = some "too big a transaction" := by
  decide +kernel

end Space

end Xv6Prng.Fs.LogOps
