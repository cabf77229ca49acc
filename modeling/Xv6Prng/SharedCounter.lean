import Xv6Prng.Solo

/-!
# The shared counter over whole runs

A call finds the generator unseeded again exactly when the increments so far make up whole
periods of the counter, or the reseeds whole periods of the reseed counter. In a run shorter
than a period, two blocks come from one pair of key and counter exactly when a call encrypts a
counter that another call has encrypted under the same key and has not incremented yet.
-/

namespace Xv6Prng

open ByteWords Halting Runs Function

variable {ι : Type} [DecidableEq ι]

theorem Shared.Next.mono {sh sh' : Shared} (h : sh.Next sh') :
    sh.increments ≤ sh'.increments ∧ sh.decisions ≤ sh'.decisions ∧
      sh.completions ≤ sh'.completions := by
  cases h <;> simp

def SeedPanic (e : Stop) : Prop :=
  e = .panic "prngrand: attempted to get random data without seeding." ∨
    e = .panic "prnggenblocks: called with non-seeded generator."

variable {page : Page} {σ : Sys ι}

theorem Pc.step_seedPanic {sh : Shared} {pc : Pc} {e : Stop} (h : pc.step sh page = .error e)
    (he : SeedPanic e) :
    (∃ n, pc = .checking n ∧ sh.prng.reseedCtr = 0) ∨
      ∃ job, pc = .entering job ∧ sh.prng.counter.c0 = 0 := by
  cases pc with
  | checking n =>
    rw [step] at h
    split at h
    · exact Or.inl ⟨n, rfl, ‹_›⟩
    · split at h
      · cases h
        simp [SeedPanic] at he
      · cases h
  | entering job =>
    rw [step] at h
    split at h
    · exact Or.inr ⟨job, rfl, ‹_›⟩
    · cases h
  | ticked n xticks done => rw [step] at h; split at h <;> cases h
  | draining n r seed offset i =>
    rw [step, if_pos (poolSelected_of_lt _ i.isLt)] at h
    split at h
    · cases h
    · cases h
      simp [SeedPanic] at he
  | seeding n seed offset =>
    rw [step] at h
    split at h
    · cases h
    · cases h
      simp [SeedPanic] at he
  | copying n =>
    rw [step] at h
    split at h
    · cases h
      simp [SeedPanic] at he
    · cases h
  | handing n =>
    rw [step] at h
    split at h
    · cases h
      simp [SeedPanic] at he
    · cases h
  | _ => cases h

def FiresUnseeded (σ : Sys ι) (a : Action ι) : Prop :=
  σ.stopped = none ∧ ∃ e, SeedPanic e ∧ (σ.step a).stopped = some e

def CounterSpent (σ : Sys ι) (a : Action ι) : Prop :=
  σ.stopped = none ∧ ∃ p page, a = .run p page ∧
    ((∃ n, σ.procs p = .checking n ∧ ∃ m > 0, σ.shared.decisions = m * 2 ^ 32) ∨
      ∃ job, σ.procs p = .entering job ∧ ∃ m > 0, σ.shared.increments = m * (2 ^ 34 - 3))

namespace Shared.Counted

variable {sh : Shared}

theorem reseedCtr_eq_zero_iff (h : sh.Counted) (hpos : 0 < sh.decisions) :
    sh.prng.reseedCtr = 0 ↔ ∃ m > 0, sh.decisions = m * 2 ^ 32 := by
  rw [h.reseedCtr]
  constructor
  · intro h0
    have hmod : sh.decisions % 2 ^ 32 = 0 := by
      simpa using congrArg BitVec.toNat h0
    exact ⟨sh.decisions / 2 ^ 32, by omega, by omega⟩
  · rintro ⟨m, -, hm⟩
    apply BitVec.eq_of_toNat_eq
    rw [hm]
    simp

theorem c0_eq_zero_iff (h : sh.Counted) (hpos : 0 < sh.increments) :
    sh.prng.counter.c0 = 0 ↔ ∃ m > 0, sh.increments = m * (2 ^ 34 - 3) := by
  rw [h.counter, Counter.iterate_zero_c0_eq_zero_iff, Counter.period]
  constructor
  · rintro ⟨m, hm⟩
    refine ⟨m, ?_, by rw [hm, mul_comm]⟩
    rcases Nat.eq_zero_or_pos m with rfl | hm'
    · omega
    · exact hm'
  · rintro ⟨m, -, hm⟩
    exact ⟨m, by rw [hm, mul_comm]⟩

end Shared.Counted

theorem firesUnseeded_iff (a : Action ι) (hc : σ.shared.Counted) (hd : 0 < σ.shared.decisions)
    (hi : 0 < σ.shared.increments) : FiresUnseeded σ a ↔ CounterSpent σ a := by
  constructor
  · rintro ⟨hs, e, he, hstop⟩
    refine ⟨hs, ?_⟩
    have hm := σ.step_moves a
    generalize σ.step a = σ' at hm hstop
    cases hm with
    | halt p page e' _ h =>
      obtain rfl := Option.some.inj hstop
      refine ⟨p, page, rfl, ?_⟩
      rcases Pc.step_seedPanic h he with ⟨n, hpc, h0⟩ | ⟨job, hpc, h0⟩
      · exact Or.inl ⟨n, hpc, (hc.reseedCtr_eq_zero_iff hd).mp h0⟩
      · exact Or.inr ⟨job, hpc, (hc.c0_eq_zero_iff hi).mp h0⟩
    | move => cases hstop
    | stay | event | tick | call =>
      have hnone : σ.stopped = some e := hstop
      rw [hs] at hnone
      cases hnone
  · rintro ⟨hs, p, page, rfl, ⟨n, hpc, hm⟩ | ⟨job, hpc, hm⟩⟩
    · have hstep : (σ.procs p).step σ.shared page =
          .error (.panic "prngrand: attempted to get random data without seeding.") := by
        rw [hpc, Pc.step, if_pos ((hc.reseedCtr_eq_zero_iff hd).mpr hm)]
      exact ⟨hs, _, Or.inl rfl, by rw [Sys.step_run_error hs hstep]⟩
    · have hstep : (σ.procs p).step σ.shared page =
          .error (.panic "prnggenblocks: called with non-seeded generator.") := by
        rw [hpc, Pc.step, if_pos ((hc.c0_eq_zero_iff hi).mpr hm)]
      exact ⟨hs, _, Or.inr rfl, by rw [Sys.step_run_error hs hstep]⟩

structure Begun (σ : Sys ι) : Prop where
  reseeding : ∀ p, (σ.procs p).reseeding = true → 0 < σ.shared.decisions
  stamping : ∀ p n, σ.procs p = .stamping n → 0 < σ.shared.increments
  done : 0 < σ.shared.completions → 0 < σ.shared.decisions ∧ 0 < σ.shared.increments

theorem Pc.Goes.begun {sh sh' : Shared} {pc pc' : Pc} (h : pc.Goes sh page sh' pc') :
    (pc'.reseeding = true → pc.reseeding = true ∨ 0 < sh'.decisions) ∧
    (∀ n, pc' = .stamping n → 0 < sh'.increments) ∧
    (sh'.completions = sh.completions ∨ ∃ n, pc = .stamping n) := by
  cases h with
  | decide =>
    exact ⟨fun _ => Or.inr (Nat.succ_pos _), fun _ h => (by simp at h), Or.inl rfl⟩
  | drain => exact ⟨fun _ => Or.inl rfl, fun _ h => (by simp at h), Or.inl rfl⟩
  | seed => exact ⟨fun _ => Or.inl rfl, fun _ h => (by cases h), Or.inl rfl⟩
  | bump => exact ⟨fun _ => Or.inl rfl, fun _ _ => Nat.succ_pos _, Or.inl rfl⟩
  | stamp n => exact ⟨fun h => (by cases h), fun _ h => (by cases h), Or.inr ⟨n, rfl⟩⟩
  | enter | increment =>
    exact ⟨fun h => (by simp at h), fun _ h => (by simp at h), Or.inl rfl⟩
  | _ => exact ⟨fun h => (by cases h), fun _ h => (by cases h), Or.inl rfl⟩

theorem Begun.step (h : Begun σ) (a : Action ι) : Begun (σ.step a) := by
  have hm := σ.step_moves a
  generalize σ.step a = σ' at hm
  cases hm with
  | stay | event | tick | halt => exact ⟨h.reseeding, h.stamping, h.done⟩
  | call p n hp =>
    refine ⟨?_, ?_, h.done⟩
    · exact Sys.forall_update (Q := fun pc => pc.reseeding = true → _) (fun hr => (by cases hr))
        fun q _ => h.reseeding q
    · exact Sys.forall_update (Q := fun pc => ∀ n, pc = .stamping n → _) (fun _ hr => (by cases hr))
        fun q _ => h.stamping q
  | move p page sh pc hs hstep =>
    have hg := Pc.step_goes hstep
    obtain ⟨hinc, hdec, -⟩ := hg.next.mono
    obtain ⟨hreseeding, hstamping, hdone⟩ := hg.begun
    have hdecided : pc.reseeding = true → 0 < sh.decisions := fun hr =>
      (hreseeding hr).elim (fun hp => (h.reseeding p hp).trans_le hdec) id
    refine ⟨?_, ?_, fun hpos => ?_⟩
    · exact Sys.forall_update (Q := fun pc => pc.reseeding = true → _) hdecided
        fun q _ hq => (h.reseeding q hq).trans_le hdec
    · exact Sys.forall_update (Q := fun pc => ∀ n, pc = .stamping n → _) hstamping
        fun q _ n hq => (h.stamping q n hq).trans_le hinc
    · rcases hdone with hsame | ⟨n, hpc⟩
      · obtain ⟨hd, hi⟩ := h.done (hsame ▸ hpos)
        exact ⟨hd.trans_le hdec, hi.trans_le hinc⟩
      · have hd := h.reseeding p (by rw [hpc]; rfl)
        exact ⟨hd.trans_le hdec, (h.stamping p n hpc).trans_le hinc⟩

theorem begun_run (acts : List (Action ι)) : Begun (run Sys.step Sys.boot acts) :=
  run_invariant ⟨fun _ h => (by cases h), fun _ _ h => (by cases h), fun h => (by cases h)⟩
    fun _ a h => h.step a

theorem Shared.Counted.iterate_c0_ne_zero {sh : Shared} (h : sh.Counted) {j : ℕ}
    (hpos : 0 < sh.increments + j) (hlt : sh.increments + j < 2 ^ 34 - 3) :
    (Counter.incrctr^[j] sh.prng.counter).c0 ≠ 0 := by
  rw [h.counter, ← iterate_add_apply, Ne, Counter.iterate_zero_c0_eq_zero_iff,
    Counter.period]
  exact fun hdvd => absurd (Nat.le_of_dvd (by omega) hdvd) (by omega)

structure Rested (sh : Shared) (k : ℕ) : Prop where
  counted : sh.Counted
  increments : sh.increments = k
  decisions : sh.decisions = 1
  completions : sh.completions = 1
  drained : (sh.pools 0).size = 0

namespace Rested

variable {sh : Shared} {k : ℕ}

theorem notDue (h : Rested sh k) (xticks last : Word) : ¬ reseedDue (sh.pools 0) xticks last := by
  rintro ⟨hsize, -⟩
  rw [h.drained] at hsize
  exact absurd hsize (by decide)

theorem reseeded (h : Rested sh k) : sh.prng.reseedCtr ≠ 0 := by
  rw [h.counted.reseedCtr, h.decisions]
  decide

theorem idle_update (procs : Fin 1 → Pc) : update procs 0 .idle = fun _ => .idle := by
  funext q
  rw [Subsingleton.elim q 0, update_self]

theorem generate (h : Rested sh k) (hpos : 0 < k) (hlt : k + 1 < 2 ^ 34 - 3)
    (procs : Fin 1 → Pc) (hp : procs 0 = .checking 1) :
    ∃ acts sh', run Sys.step ⟨sh, procs, none⟩ acts = ⟨sh', fun _ => .idle, none⟩ ∧
      Rested sh' (k + 3) := by
  have hk := h.increments
  obtain ⟨pages, hsolo⟩ := solo_generate sh (n := 1) (by decide) (by decide) h.reseeded
    (h.counted.iterate_c0_ne_zero (j := 0) (by omega) (by omega))
    (h.counted.iterate_c0_ne_zero (j := 1) (by omega) (by omega))
  have hrun := hsolo.run 0 procs hp
  rw [idle_update] at hrun
  obtain ⟨hpools, hinc, hdec, hdone⟩ := request_frame sh 1
  refine ⟨_, _, hrun, ?_, ?_, hdec.trans h.decisions, hdone.trans h.completions, ?_⟩
  · have hcounted := Shared.Counted.run (σ := ⟨sh, procs, none⟩) h.counted
      (pages.map (Action.run 0))
    rwa [hrun] at hcounted
  · rw [hinc, hk]
    rfl
  · rw [hpools]
    exact h.drained

theorem request (h : Rested sh k) (hpos : 0 < k) (hlt : k + 1 < 2 ^ 34 - 3) :
    ∃ acts sh', run Sys.step ⟨sh, fun _ : Fin 1 => .idle, none⟩ acts =
      ⟨sh', fun _ => .idle, none⟩ ∧ Rested sh' (k + 3) := by
  have hskip := (solo_skip 1 (h.notDue _ _)).run 0
    (update (fun _ : Fin 1 => .idle) 0 (.start 1)) (update_self ..)
  rw [update_idem] at hskip
  obtain ⟨acts, sh', hrun, h'⟩ := h.generate hpos hlt
    (update (fun _ => .idle) 0 (.checking 1)) (update_self ..)
  refine ⟨(.call 0 1 :: [noPage, noPage].map (Action.run 0)) ++ acts, sh', ?_, h'⟩
  rw [run_append, run_cons]
  exact (congrArg (fun σ => run Sys.step σ acts) hskip).trans hrun

theorem first : ∃ acts sh, run Sys.step Sys.boot acts = ⟨sh, fun _ : Fin 1 => .idle, none⟩ ∧
    Rested sh 4 := by
  obtain ⟨acts₁, key, hfirst⟩ := first_reseed (0 : Fin 1) 1
  have hcounted := Sys.counted_run acts₁
  rw [hfirst] at hcounted
  have hrested : Rested (Shared.awake.reseeded key) 1 := ⟨hcounted, rfl, rfl, rfl, rfl⟩
  obtain ⟨acts₂, sh, hrun, h⟩ := hrested.generate Nat.one_pos (by decide)
    (update (fun _ => .idle) 0 (.checking 1)) (update_self ..)
  exact ⟨acts₁ ++ acts₂, sh, by rw [run_append, hfirst, hrun], h⟩

theorem requests (j : ℕ) (hj : 3 * j + 4 ≤ 2 ^ 34 - 3) :
    ∃ acts sh, run Sys.step Sys.boot acts = ⟨sh, fun _ : Fin 1 => .idle, none⟩ ∧
      Rested sh (3 * j + 4) := by
  induction j with
  | zero => exact first
  | succ j ih =>
    obtain ⟨acts, sh, hrun, h⟩ := ih (by omega)
    obtain ⟨acts', sh', hrun', h'⟩ := h.request (by omega) (by omega)
    refine ⟨acts ++ acts', sh', by rw [run_append, hrun, hrun'], ?_⟩
    rwa [show 3 * j + 4 + 3 = 3 * (j + 1) + 4 by omega] at h'

end Rested

theorem no_seedPanic_iff (acts₁ acts₂ : List (Action ι))
    (h : 0 < (run Sys.step Sys.boot acts₁).shared.completions) :
    Along Sys.step (fun σ a => ¬ FiresUnseeded σ a) (run Sys.step Sys.boot acts₁) acts₂ ↔
      Along Sys.step (fun σ a => ¬ CounterSpent σ a) (run Sys.step Sys.boot acts₁) acts₂ := by
  refine along_congr (I := fun σ : Sys ι => σ.shared.Counted ∧ 0 < σ.shared.decisions ∧
    0 < σ.shared.increments) ⟨Sys.counted_run acts₁, (begun_run acts₁).done h⟩ ?_ ?_
  · rintro σ a ⟨hc, hd, hi⟩
    obtain ⟨hinc, hdec, -⟩ := (σ.step_next a).mono
    exact ⟨hc.next (σ.step_next a), hd.trans_le hdec, hi.trans_le hinc⟩
  · rintro σ a ⟨hc, hd, hi⟩
    exact not_congr (firesUnseeded_iff a hc hd hi)

theorem along_not_counterSpent {acts : List (Action ι)}
    (hi : (run Sys.step σ acts).shared.increments < 2 ^ 34 - 3)
    (hd : (run Sys.step σ acts).shared.decisions < 2 ^ 32) :
    Along Sys.step (fun σ a => ¬ CounterSpent σ a) σ acts := by
  refine ((iff_along (I := fun _ => True) (N := fun _ => True) (B := fun σ : Sys ι =>
    σ.shared.increments < 2 ^ 34 - 3 ∧ σ.shared.decisions < 2 ^ 32) trivial
    (fun _ _ _ => trivial) (fun σ a hB => ?_) (fun σ a _ hB => ?_) ⟨hi, hd⟩).mp trivial).2
  · obtain ⟨hinc, hdec, -⟩ := (σ.step_next a).mono
    exact ⟨hinc.trans_lt hB.1, hdec.trans_lt hB.2⟩
  · obtain ⟨hinc, hdec, -⟩ := (σ.step_next a).mono
    refine iff_of_true trivial ⟨trivial, ?_⟩
    rintro ⟨-, p, page, -, ⟨n, -, m, hm, heq⟩ | ⟨job, -, m, hm, heq⟩⟩ <;> omega

/-- After the first reseed and a request of one byte, one more request of one byte. -/
theorem no_seedPanic_iff_first : ∃ acts₁ acts₂ : List (Action (Fin 1)),
    0 < (run Sys.step Sys.boot acts₁).shared.completions ∧
      (run Sys.step (run Sys.step Sys.boot acts₁) acts₂).shared.increments = 7 ∧
      Along Sys.step (fun σ a => ¬ FiresUnseeded σ a) (run Sys.step Sys.boot acts₁) acts₂ := by
  obtain ⟨acts₁, sh, hrun, h⟩ := Rested.first
  obtain ⟨acts₂, sh', hrun', h'⟩ := h.request (by decide) (by decide)
  have hdone : 0 < (run Sys.step Sys.boot acts₁).shared.completions := by
    rw [hrun, h.completions]
    exact Nat.one_pos
  rw [← hrun] at hrun'
  have hi : (run Sys.step (run Sys.step Sys.boot acts₁) acts₂).shared.increments = 7 := by
    rw [hrun', h'.increments]
  refine ⟨acts₁, acts₂, hdone, hi, (no_seedPanic_iff acts₁ acts₂ hdone).mpr ?_⟩
  refine along_not_counterSpent (by rw [hi]; decide) ?_
  rw [hrun', h'.decisions]
  decide

/-- One process, one reseed and 5726623060 requests of a byte each: the counter is clear
again and the next request stops the kernel. -/
theorem firesUnseeded_after_requests : ∃ acts₁ acts₂ : List (Action (Fin 1)),
    0 < (run Sys.step Sys.boot acts₁).shared.completions ∧
      ¬ Along Sys.step (fun σ a => ¬ FiresUnseeded σ a) (run Sys.step Sys.boot acts₁) acts₂ := by
  obtain ⟨acts, sh, hrun, h⟩ := Rested.requests 5726623059 (by decide)
  have hcheck : (Pc.checking 1).step sh noPage = .ok (sh, .entering ⟨1, false⟩) := by
    rw [Pc.step, if_neg h.reseeded, if_neg (by decide)]
  have hsolo := ((solo_skip 1 (h.notDue _ _)).append (.single hcheck)).run 0
    (update (fun _ : Fin 1 => .idle) 0 (.start 1)) (update_self ..)
  rw [update_idem] at hsolo
  have hcall : Sys.step ⟨sh, fun _ => .idle, none⟩ (.call 0 1) =
      ⟨sh, update (fun _ : Fin 1 => .idle) 0 (.start 1), none⟩ := rfl
  refine ⟨acts, (Action.call 0 1 :: ([noPage, noPage] ++ [noPage]).map (Action.run 0)) ++
    [.run 0 noPage], ?_, ?_⟩
  · rw [hrun, h.completions]
    exact Nat.one_pos
  · rw [along_append, along_singleton, hrun, run_cons, hcall, hsolo]
    rintro ⟨-, hno⟩
    refine hno ((firesUnseeded_iff _ h.counted ?_ ?_).mpr ⟨rfl, 0, noPage, rfl, Or.inr
      ⟨⟨1, false⟩, rfl, 1, Nat.one_pos, h.increments⟩⟩)
    · exact Nat.one_pos.trans_eq h.decisions.symm
    · exact (Nat.succ_pos _).trans_eq h.increments.symm

def Pc.pending : Pc → Option (Buffer 32 × Counter)
  | .incrementing _ _ key c => some (key, c)
  | _ => none

@[simp] theorem Pc.pending_atPool (n : ℕ) (r : Word) (seed : Page) (offset i : ℕ) :
    (Pc.atPool n r seed offset i).pending = none := by
  rw [atPool]
  split <;> rfl

@[simp] theorem Job.pending_resume (job : Job) (out : List Aes.Block) :
    (job.resume out).pending = none := by
  rw [resume]
  split
  · rfl
  · split <;> rfl

/-- If the action encrypts, no call is still to increment the counter it encrypts after
encrypting it under the same key. -/
def EncryptsFresh (σ : Sys ι) (a : Action ι) : Prop :=
  ∀ p page job out key, a = .run p page → σ.stopped = none →
    σ.procs p = .encrypting job out key →
      ∀ q, (σ.procs q).pending ≠ some (key, σ.shared.prng.counter)

def PendingIn (used : List (Buffer 32 × Counter)) (pc : Pc) : Prop :=
  ∀ pair, pc.pending = some pair → pair ∈ used

theorem pendingIn_of_none {used : List (Buffer 32 × Counter)} {pc : Pc} (h : pc.pending = none) :
    PendingIn used pc := by
  intro pair hp
  rw [h] at hp
  cases hp

/-- The pairs used so far: those of the current counter are pending, the others older. -/
structure UsedInv (σ : Sys ι) : Prop where
  counted : σ.shared.Counted
  pending : ∀ q, PendingIn σ.shared.used (σ.procs q)
  used : ∀ pair ∈ σ.shared.used, ∃ j ≤ σ.shared.increments,
    pair.2 = Counter.incrctr^[j] Counter.zero ∧
      (j = σ.shared.increments → ∃ q, (σ.procs q).pending = some pair)

theorem Pc.Goes.pending_cases {sh sh' : Shared} {pc pc' : Pc} (h : pc.Goes sh page sh' pc') :
    (∃ job out key, pc = .encrypting job out key ∧ sh' = sh.use key ∧
      pc'.pending = some (key, sh.prng.counter)) ∨
    (sh' = sh.incr ∧ pc'.pending = none) ∨
    (sh'.increments = sh.increments ∧ sh'.used = sh.used ∧ pc.pending = none ∧
      pc'.pending = none) := by
  cases h with
  | encrypt job out key => exact Or.inl ⟨job, out, key, rfl, rfl, rfl⟩
  | bump => exact Or.inr (Or.inl ⟨rfl, rfl⟩)
  | increment => exact Or.inr (Or.inl ⟨rfl, Job.pending_resume _ _⟩)
  | decide | drain => exact Or.inr (Or.inr ⟨rfl, rfl, rfl, Pc.pending_atPool ..⟩)
  | enter => exact Or.inr (Or.inr ⟨rfl, rfl, rfl, Job.pending_resume _ _⟩)
  | _ => exact Or.inr (Or.inr ⟨rfl, rfl, rfl, rfl⟩)

variable {p : ι}

theorem exists_pending_update {procs : ι → Pc} {pc : Pc} {pair : Buffer 32 × Counter}
    (hp : (procs p).pending = none) (h : ∃ q, (procs q).pending = some pair) :
    ∃ q, (update procs p pc q).pending = some pair := by
  obtain ⟨q, hq⟩ := h
  have hne : q ≠ p := by
    rintro rfl
    rw [hp] at hq
    cases hq
  exact ⟨q, by rwa [update_of_ne hne]⟩

theorem UsedInv.call (h : UsedInv σ) (n : ℕ) (hp : σ.procs p = .idle) :
    UsedInv { σ with procs := update σ.procs p (.start n) }  where
  counted := h.counted
  pending := Sys.forall_update (pendingIn_of_none rfl) fun q _ => h.pending q
  used pair hpair := by
    obtain ⟨j, hj, hc, hq⟩ := h.used pair hpair
    exact ⟨j, hj, hc, fun he => exists_pending_update (by rw [hp]; rfl) (hq he)⟩

theorem UsedInv.move (h : UsedInv σ) {sh : Shared} {pc : Pc}
    (hg : (σ.procs p).Goes σ.shared page sh pc) : UsedInv ⟨sh, update σ.procs p pc, none⟩ := by
  have hcounted := h.counted.next hg.next
  rcases hg.pending_cases with ⟨job, out, key, hpc, rfl, hpend⟩ | ⟨rfl, hpend⟩ |
    ⟨hinc, hused, hnone, hpend⟩
  · refine ⟨hcounted, ?_, fun pair hpair => ?_⟩
    · refine Sys.forall_update (Q := PendingIn _) (fun pair hq => ?_) fun q _ pair hq => ?_
      · rw [hpend] at hq
        cases hq
        simp
      · exact List.mem_append_left _ (h.pending q pair hq)
    · rcases List.mem_append.mp hpair with hold | hnew
      · obtain ⟨j, hj, hc, hq⟩ := h.used pair hold
        exact ⟨j, hj, hc, fun he => exists_pending_update (by rw [hpc]; rfl) (hq he)⟩
      · rw [List.mem_singleton] at hnew
        subst hnew
        exact ⟨_, le_rfl, h.counted.counter, fun _ => ⟨p, by simpa using hpend⟩⟩
  · -- Every pair is older than the counter now.
    refine ⟨hcounted, ?_, fun pair hpair => ?_⟩
    · exact Sys.forall_update (pendingIn_of_none hpend) fun q _ => h.pending q
    · obtain ⟨j, hj, hc, -⟩ := h.used pair hpair
      refine ⟨j, Nat.le_succ_of_le hj, hc, fun he => ?_⟩
      rw [Shared.incr_increments] at he
      omega
  · refine ⟨hcounted, ?_, fun pair hpair => ?_⟩
    · simp only [hused]
      exact Sys.forall_update (pendingIn_of_none hpend) fun q _ => h.pending q
    · rw [hused] at hpair
      obtain ⟨j, hj, hc, hq⟩ := h.used pair hpair
      rw [hinc]
      exact ⟨j, hj, hc, fun he => exists_pending_update hnone (hq he)⟩

theorem UsedInv.step (h : UsedInv σ) (a : Action ι) : UsedInv (σ.step a) := by
  have hc := h.counted.next (σ.step_next a)
  have hm := σ.step_moves a
  generalize σ.step a = σ' at hm hc
  cases hm with
  | stay | event | tick | halt => exact ⟨hc, h.pending, h.used⟩
  | call p n hp => exact h.call n hp
  | move p page sh pc hs hstep => exact h.move (Pc.step_goes hstep)

omit [DecidableEq ι] in
theorem usedInv_boot : UsedInv (Sys.boot : Sys ι) where
  counted := ⟨rfl, rfl⟩
  pending _ _ h := by cases h
  used _ h := by cases h

omit [DecidableEq ι] in
theorem UsedInv.notMem_iff (h : UsedInv σ) (hlt : σ.shared.increments < 2 ^ 34 - 3)
    (key : Buffer 32) : (key, σ.shared.prng.counter) ∉ σ.shared.used ↔
      ∀ q, (σ.procs q).pending ≠ some (key, σ.shared.prng.counter) := by
  constructor
  · exact fun hmem q hq => hmem (h.pending q _ hq)
  · intro hfresh hmem
    obtain ⟨j, hj, hc, hq⟩ := h.used _ hmem
    rcases hj.lt_or_eq with hlt' | heq
    · rw [h.counted.counter] at hc
      refine Counter.iterate_ne Counter.zero hlt' ?_ hc
      unfold Counter.period
      omega
    · obtain ⟨q, hq⟩ := hq heq
      exact hfresh q hq

theorem used_step {a : Action ι} (h : ∀ p page job out key, a = .run p page → σ.stopped = none →
      σ.procs p ≠ .encrypting job out key) : (σ.step a).shared.used = σ.shared.used := by
  have hm := σ.step_moves a
  generalize σ.step a = σ' at hm
  cases hm with
  | stay | event | tick | call | halt => rfl
  | move p page sh pc hs hstep =>
    rcases (Pc.step_goes hstep).pending_cases with ⟨job, out, key, hpc, -⟩ | ⟨rfl, -⟩ |
      ⟨-, hused, -⟩
    · exact absurd hpc (h p page job out key rfl hs)
    · rfl
    · exact hused

theorem UsedInv.nodup_step (h : UsedInv σ) (a : Action ι) (hlt : σ.shared.increments < 2 ^ 34 - 3) :
    (σ.step a).shared.used.Nodup ↔ σ.shared.used.Nodup ∧ EncryptsFresh σ a := by
  by_cases henc : ∀ p page job out key, a = .run p page → σ.stopped = none →
      σ.procs p ≠ .encrypting job out key
  · rw [used_step henc]
    refine (and_iff_left ?_).symm
    intro p page job out key ha hs hp
    exact absurd hp (henc p page job out key ha hs)
  · push Not at henc
    obtain ⟨p, page, job, out, key, rfl, hs, hp⟩ := henc
    obtain ⟨pc, hstep⟩ : ∃ pc, (σ.procs p).step σ.shared page = .ok (σ.shared.use key, pc) :=
      ⟨_, by rw [hp, Pc.step]⟩
    rw [Sys.step_run_ok hs hstep, Shared.use_used, List.nodup_append_comm, List.singleton_append,
      List.nodup_cons, and_comm, h.notMem_iff hlt]
    refine and_congr_right fun _ => ⟨fun hfresh => ?_, fun hfresh => hfresh p page job out key rfl hs hp⟩
    intro p' page' job' out' key' ha _ hp'
    cases ha
    rw [hp] at hp'
    cases hp'
    exact hfresh

theorem used_nodup_iff (acts : List (Action ι))
    (h : (run Sys.step Sys.boot acts).shared.increments < 2 ^ 34 - 3) :
    (run Sys.step Sys.boot acts).shared.used.Nodup ↔
      Along Sys.step EncryptsFresh Sys.boot acts := by
  have hiff := iff_along (N := fun σ : Sys ι => σ.shared.used.Nodup)
    (B := fun σ => σ.shared.increments < 2 ^ 34 - 3) usedInv_boot (fun σ a hσ => hσ.step a)
    (fun σ a hlt => (σ.step_next a).mono.1.trans_lt hlt)
    (fun σ a hσ hlt => hσ.nodup_step a ((σ.step_next a).mono.1.trans_lt hlt)) h
  exact hiff.trans (and_iff_right List.nodup_nil)

theorem used_nodup_iff_first : ∃ acts : List (Action (Fin 2)),
    (run Sys.step Sys.boot acts).shared.increments < 2 ^ 34 - 3 ∧
      ((run Sys.step Sys.boot acts).shared.used.Nodup ↔
        Along Sys.step EncryptsFresh Sys.boot acts) := by
  obtain ⟨acts, key, hrun⟩ := first_reseed (0 : Fin 2) 1
  have h : (run Sys.step Sys.boot acts).shared.increments < 2 ^ 34 - 3 := by
    rw [hrun]
    exact show (1 : ℕ) < 2 ^ 34 - 3 by decide
  exact ⟨acts, h, used_nodup_iff acts h⟩

theorem solo_encrypting {sh : Shared} (hr : sh.prng.reseedCtr ≠ 0)
    (hc : sh.prng.counter.c0 ≠ 0) : Pc.Solo sh (.checking 1) [noPage, noPage, noPage] sh
      (.encrypting ⟨1, false⟩ [] sh.prng.key) := by
  have hcheck : (Pc.checking 1).step sh noPage = .ok (sh, .entering ⟨1, false⟩) := by
    rw [Pc.step, if_neg hr, if_neg (by decide)]
  have henter : (Pc.entering ⟨1, false⟩).step sh noPage = .ok (sh, .expanding ⟨1, false⟩ []) := by
    rw [Pc.step, if_neg hc]
    rfl
  exact .cons _ hcheck (.cons _ henter (.cons _ rfl (.nil _ _)))

theorem step_encrypting (hs : σ.stopped = none) {job : Job} {out : List Aes.Block}
    {key : Buffer 32} (hp : σ.procs p = .encrypting job out key) (page : Page) :
    ∃ pc, σ.step (.run p page) = ⟨σ.shared.use key, update σ.procs p pc, none⟩ := by
  obtain ⟨pc, hstep⟩ : ∃ pc, (σ.procs p).step σ.shared page = .ok (σ.shared.use key, pc) :=
    ⟨_, by rw [hp, Pc.step]⟩
  exact ⟨pc, Sys.step_run_ok hs hstep⟩

theorem encrypt_twice (sh : Shared) (procs : ι → Pc) {p q : ι} (hpq : q ≠ p) {job : Job}
    {key : Buffer 32} (hp : procs p = .encrypting job [] key)
    (hq : procs q = .encrypting job [] key) :
    (run Sys.step ⟨sh, procs, none⟩ [.run p noPage, .run q noPage]).shared =
      (sh.use key).use key := by
  obtain ⟨pc, hfirst⟩ := step_encrypting (σ := ⟨sh, procs, none⟩) rfl hp noPage
  have hq' : update procs p pc q = .encrypting job [] key := by
    rw [update_of_ne hpq, hq]
  obtain ⟨pc', hsecond⟩ :=
    step_encrypting (σ := ⟨sh.use key, update procs p pc, none⟩) rfl hq' noPage
  rw [run_cons, hfirst, run_cons, hsecond, run_nil]

/-- The first reseed, then two requests of one byte, side by side. -/
theorem not_used_nodup_two : ∃ acts : List (Action (Fin 2)),
    (run Sys.step Sys.boot acts).shared.increments < 2 ^ 34 - 3 ∧
      ¬ (run Sys.step Sys.boot acts).shared.used.Nodup := by
  obtain ⟨acts, key, hfirst⟩ := first_reseed (0 : Fin 2) 1
  have hcounted := Sys.counted_run acts
  rw [hfirst] at hcounted
  have hrested : Rested (Shared.awake.reseeded key) 1 := ⟨hcounted, rfl, rfl, rfl, rfl⟩
  generalize Shared.awake.reseeded key = sh at hfirst hrested
  have hencrypting := solo_encrypting hrested.reseeded
    (hrested.counted.iterate_c0_ne_zero (j := 0) (by rw [hrested.increments]; decide)
      (by rw [hrested.increments]; decide))
  have h0 := hencrypting.run (0 : Fin 2) _
    (update_self 0 (Pc.checking 1) fun _ => Pc.idle)
  rw [update_idem] at h0
  generalize hprocs : update (fun _ : Fin 2 => Pc.idle) 0
    (.encrypting ⟨1, false⟩ [] sh.prng.key) = procs at h0
  have h1 := ((solo_skip 1 (hrested.notDue _ _)).append hencrypting).run (1 : Fin 2) _
    (update_self 1 (Pc.start 1) procs)
  rw [update_idem] at h1
  have hcall : Sys.step ⟨sh, procs, none⟩ (.call 1 1) =
      ⟨sh, update procs 1 (.start 1), none⟩ := by
    rw [← hprocs]
    rfl
  rw [← hcall, ← run_cons] at h1
  have hshared := encrypt_twice sh (update procs 1 _) (p := 0) (q := 1) (by decide)
    (by rw [← hprocs]; rfl) (update_self 1 (Pc.encrypting ⟨1, false⟩ [] sh.prng.key) procs)
  refine ⟨acts ++ ([noPage, noPage, noPage].map (Action.run 0) ++
    (Action.call 1 1 :: ([noPage, noPage] ++ [noPage, noPage, noPage]).map (Action.run 1)) ++
    [Action.run 0 noPage, Action.run 1 noPage]), ?_⟩
  rw [run_append, hfirst, run_append, run_append, h0, h1, hshared]
  constructor
  · rw [Shared.use_increments, Shared.use_increments, hrested.increments]
    decide
  · rw [Shared.use_used, Shared.use_used, Shared.use_prng, List.append_assoc]
    intro hnodup
    have hpair := (List.nodup_append.mp hnodup).2.1
    simp at hpair

end Xv6Prng
