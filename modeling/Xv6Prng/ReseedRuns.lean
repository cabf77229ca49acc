import Xv6Prng.Solo

/-!
# Reseeds over whole runs

The test that should select the pools by the number of the reseed is true for every pool, so
a reseed leaves a pool as it was only if there was nothing in it. The decision to reseed is
taken under the lock of pool 0 on a reading of the ticks made before, and the pools are emptied
later: the spacing and the filling that the decision asks for hold of a reseed as long as
reseeds are decided one at a time on readings that no other reseed has made stale.
-/

namespace Xv6Prng

open ByteWords Halting Runs Function

variable {ι : Type} [DecidableEq ι]

def KeepsUnselected (σ : Sys ι) (a : Action ι) : Prop :=
  ∀ p page n r seed offset i, a = .run p page → σ.stopped = none →
    σ.procs p = .draining n r seed offset i → r.toNat < 2 ^ i.val →
      (σ.step a).shared.pools i = σ.shared.pools i

def UnselectedEmpty (σ : Sys ι) (a : Action ι) : Prop :=
  ∀ p page n r seed offset i, a = .run p page → σ.stopped = none →
    σ.procs p = .draining n r seed offset i → r.toNat < 2 ^ i.val →
      (σ.shared.pools i).size = 0 ∨ ¬ Hash.sizeOk (σ.shared.pools i).hashLength

theorem pools_step_draining {σ : Sys ι} {p : ι} {page seed : Page} {n offset : ℕ} {r : Word}
    {i : Fin 32} (hs : σ.stopped = none) (hp : σ.procs p = .draining n r seed offset i) :
    (σ.step (.run p page)).shared.pools i = σ.shared.pools i ↔
      (σ.shared.pools i).size = 0 ∨ ¬ Hash.sizeOk (σ.shared.pools i).hashLength := by
  by_cases hok : Hash.sizeOk (σ.shared.pools i).hashLength
  · obtain ⟨seed', hstep⟩ := Pc.step_drain σ.shared page n r seed offset hok
    rw [← hp] at hstep
    rw [Sys.step_run_ok hs hstep, Shared.drain_pools, update_self,
      EntropyPool.drain_eq_self_iff]
    exact ⟨Or.inl, fun h => h.resolve_right fun hno => hno hok⟩
  · have hstep : (σ.procs p).step σ.shared page =
        .error (.panic "invalid sha256 message size\n") := by
      rw [hp, Pc.step, if_pos (poolSelected_of_lt _ i.isLt), if_neg hok]
    rw [Sys.step_run_error hs hstep]
    exact iff_of_true rfl (Or.inr hok)

theorem keepsUnselected_iff (σ : Sys ι) (a : Action ι) :
    KeepsUnselected σ a ↔ UnselectedEmpty σ a := by
  constructor
  · rintro h p page n r seed offset i rfl hs hp hr
    exact (pools_step_draining hs hp).mp (h p page n r seed offset i rfl hs hp hr)
  · rintro h p page n r seed offset i rfl hs hp hr
    exact (pools_step_draining hs hp).mpr (h p page n r seed offset i rfl hs hp hr)

/-- Over a whole run, the reseeds spare the pools they should spare exactly when there is
nothing in these pools. -/
theorem along_keepsUnselected_iff (acts : List (Action ι)) :
    Along Sys.step KeepsUnselected Sys.boot acts ↔
      Along Sys.step UnselectedEmpty Sys.boot acts :=
  along_congr (I := fun _ => True) trivial (fun _ _ _ => trivial)
    fun σ a _ => keepsUnselected_iff σ a

def eventsForTwo : List RandomEvent := List.replicate 3 longEvent ++ [{ longEvent with pnum := 1 }]

def Shared.awakeTwo : Shared :=
  { Shared.initial with pools := poolsAfter eventsForTwo, ticks := 11 }

theorem awakeTwo_size : (Shared.awakeTwo.pools 0).size = 102 ∧
    (Shared.awakeTwo.pools 1).size = 34 :=
  ⟨poolsAfter_size eventsForTwo 0, poolsAfter_size eventsForTwo 1⟩

theorem awakeTwo_due : reseedDue (Shared.awakeTwo.pools 0) 11 0 := by
  refine ⟨?_, by decide⟩
  rw [awakeTwo_size.1]
  decide

theorem awakeTwo_sizeOk (i : Fin 32) (hi : i = 0 ∨ i = 1) :
    Hash.sizeOk (Shared.awakeTwo.pools i).hashLength := by
  rw [sizeOk_hashLength]
  rcases hi with rfl | rfl
  · rw [awakeTwo_size.1]
    decide
  · rw [awakeTwo_size.2]
    decide

theorem solo_second_pool : ∃ seed, Pc.Solo Shared.awakeTwo (.start 1) [noPage, noPage, noPage]
    (Shared.awakeTwo.decideReseed.drain 0) (.draining 1 1 seed 32 1) := by
  have hdecide := Pc.step_decide Shared.awakeTwo noPage 1 0 awakeTwo_due
  obtain ⟨seed, hdrain⟩ := Pc.step_drain Shared.awakeTwo.decideReseed noPage 1 1
    (fun _ => 0) 0 (awakeTwo_sizeOk 0 (Or.inl rfl))
  exact ⟨seed, .cons noPage rfl (.cons _ hdecide (.cons _ hdrain (.nil _ _)))⟩

theorem not_along_keepsUnselected : ∃ acts : List (Action (Fin 1)),
    ¬ Along Sys.step KeepsUnselected Sys.boot acts := by
  obtain ⟨seed, hsolo⟩ := solo_second_pool
  have hrun := hsolo.run (0 : Fin 1) _ (update_self 0 (Pc.start 1) fun _ => Pc.idle)
  have hboot : run Sys.step (Sys.boot : Sys (Fin 1)) (eventsForTwo.map Action.event ++
      List.replicate 11 Action.tick ++ [Action.call 0 1]) =
      ⟨Shared.awakeTwo, update (fun _ => .idle) 0 (.start 1), none⟩ := by
    rw [run_append, run_append, Sys.boot, run_events, run_ticks]
    rfl
  refine ⟨(eventsForTwo.map Action.event ++ List.replicate 11 Action.tick ++ [Action.call 0 1]) ++
    [noPage, noPage, noPage].map (Action.run 0) ++ [Action.run 0 noPage], ?_⟩
  rw [along_append, along_singleton, run_append, hboot, hrun, keepsUnselected_iff]
  rintro ⟨-, hempty⟩
  have hsize : ((Shared.awakeTwo.decideReseed.drain 0).pools 1).size = 34 := awakeTwo_size.2
  rcases hempty 0 noPage 1 1 seed 32 1 rfl rfl rfl (by decide) with h | h
  · exact absurd (hsize.symm.trans h) (by decide)
  · exact h (awakeTwo_sizeOk 1 (Or.inr rfl))

/-- Every reseed decided before is completed, more than 10 ticks have passed since the last
one was, and pool 0 is full enough when the reseed empties it. -/
def ReseedsTimely (σ : Sys ι) (a : Action ι) : Prop :=
  ∀ p page, a = .run p page → σ.stopped = none →
    (∀ n r seed offset, σ.procs p = .draining n r seed offset 0 →
      (σ.shared.pools 0).size.toInt > MIN_SIZE_POOL) ∧
    ∀ n xticks done, σ.procs p = .ticked n xticks done →
      reseedDue (σ.shared.pools 0) xticks σ.shared.prng.lastReseedTicks →
        σ.shared.decisions = σ.shared.completions ∧
          σ.shared.ticks - σ.shared.prng.lastReseedTicks > 10

/-- A call that decides to reseed finds no reseed under way and none completed since it read the
ticks, which do not wrap around meanwhile; no event overflows the size of pool 0. -/
structure ReseedsInTurn (σ : Sys ι) (a : Action ι) : Prop where
  decides : ∀ p page n xticks done, a = .run p page → σ.procs p = .ticked n xticks done →
    reseedDue (σ.shared.pools 0) xticks σ.shared.prng.lastReseedTicks →
      (∀ q, (σ.procs q).reseeding = false) ∧ done = σ.shared.completions
  ticks : a = .tick → ∀ p n xticks done, σ.procs p = .ticked n xticks done →
    σ.shared.ticks + 1 ≠ σ.shared.prng.lastReseedTicks
  events : ∀ e, a = .event e → e.selected = some 0 →
    (σ.shared.pools 0).size.toInt + e.length < 2 ^ 31

def Turn (reseeding : ι → Bool) (sh : Shared) : Prop :=
  (∀ p, reseeding p = false) ∧ sh.decisions = sh.completions ∨
    ∃ p, reseeding p = true ∧ (∀ q, q ≠ p → reseeding q = false) ∧
      sh.decisions = sh.completions + 1

def DrainsFull (sh : Shared) (pc : Pc) : Prop :=
  ∀ n r seed offset, pc = .draining n r seed offset 0 → (sh.pools 0).size.toInt > MIN_SIZE_POOL

def ReadBefore (sh : Shared) (pc : Pc) : Prop :=
  ∀ n xticks done, pc = .ticked n xticks done → done ≤ sh.completions ∧
    (done = sh.completions →
      xticks - sh.prng.lastReseedTicks ≤ sh.ticks - sh.prng.lastReseedTicks)

structure TurnInv (σ : Sys ι) : Prop where
  turn : Turn (fun p => (σ.procs p).reseeding) σ.shared
  full : ∀ p, DrainsFull σ.shared (σ.procs p)
  read : ∀ p, ReadBefore σ.shared (σ.procs p)

structure Shared.SameTurn (sh sh' : Shared) : Prop where
  pool : (sh'.pools 0).size = (sh.pools 0).size
  ticks : sh'.ticks = sh.ticks
  stamp : sh'.prng.lastReseedTicks = sh.prng.lastReseedTicks
  decisions : sh'.decisions = sh.decisions
  completions : sh'.completions = sh.completions

variable {sh sh' : Shared}

omit [DecidableEq ι] in
theorem Shared.SameTurn.turn (h : sh.SameTurn sh') {reseeding : ι → Bool}
    (ht : Turn reseeding sh) : Turn reseeding sh' := by
  rw [Turn, h.decisions, h.completions]
  exact ht

variable {pc : Pc}

theorem Shared.SameTurn.full (h : sh.SameTurn sh') (hf : DrainsFull sh pc) : DrainsFull sh' pc := by
  rw [DrainsFull, h.pool]
  exact hf

theorem Shared.SameTurn.read (h : sh.SameTurn sh') (hr : ReadBefore sh pc) : ReadBefore sh' pc := by
  rw [ReadBefore, h.completions, h.stamp, h.ticks]
  exact hr

structure Pc.Indifferent (pc : Pc) : Prop where
  draining : ∀ n r seed offset, pc ≠ .draining n r seed offset 0
  ticked : ∀ n xticks done, pc ≠ .ticked n xticks done

theorem Pc.Indifferent.full (h : pc.Indifferent) (sh : Shared) : DrainsFull sh pc :=
  fun n r seed offset hpc => absurd hpc (h.draining n r seed offset)

theorem Pc.Indifferent.read (h : pc.Indifferent) (sh : Shared) : ReadBefore sh pc :=
  fun n xticks done hpc => absurd hpc (h.ticked n xticks done)

theorem Pc.indifferent_atPool (n : ℕ) (r : Word) (seed : Page) (offset i : ℕ) :
    (Pc.atPool n r seed offset (i + 1)).Indifferent := by
  rw [atPool]
  split
  · exact ⟨fun _ _ _ _ h => (by cases h), fun _ _ _ h => (by cases h)⟩
  · exact ⟨fun _ _ _ _ h => (by cases h), fun _ _ _ h => (by cases h)⟩

theorem Job.indifferent_resume (job : Job) (out : List Aes.Block) :
    (job.resume out).Indifferent := by
  rw [resume]
  split
  · exact ⟨fun _ _ _ _ h => (by cases h), fun _ _ _ h => (by cases h)⟩
  · split
    · exact ⟨fun _ _ _ _ h => (by cases h), fun _ _ _ h => (by cases h)⟩
    · exact ⟨fun _ _ _ _ h => (by cases h), fun _ _ _ h => (by cases h)⟩

theorem Pc.Goes.turn_cases {page : Page} {pc pc' : Pc} (h : pc.Goes sh page sh' pc') :
    (∃ n, pc = .start n ∧ sh' = sh ∧ pc' = .ticked n sh.ticks sh.completions) ∨
    (∃ n xticks done r seed, pc = .ticked n xticks done ∧
      reseedDue (sh.pools 0) xticks sh.prng.lastReseedTicks ∧ sh' = sh.decideReseed ∧
      pc' = .draining n r seed 0 0) ∨
    (∃ n r seed offset i, pc = .draining n r seed offset i ∧ sh' = sh.drain i ∧
      pc'.reseeding = true ∧ pc'.Indifferent) ∨
    (∃ n, pc = .stamping n ∧ sh' = sh.stamp ∧ pc' = .checking n) ∨
    (sh.SameTurn sh' ∧ pc'.reseeding = pc.reseeding ∧ pc'.Indifferent) := by
  cases h with
  | readTicks n => exact Or.inl ⟨n, rfl, rfl, rfl⟩
  | decide n xticks done h =>
    exact Or.inr (Or.inl ⟨n, xticks, done, _, _, rfl, h, rfl, rfl⟩)
  | drain n r seed seed' offset i =>
    exact Or.inr (Or.inr (Or.inl ⟨n, r, seed, offset, i, rfl, rfl, Pc.reseeding_atPool ..,
      Pc.indifferent_atPool ..⟩))
  | stamp n => exact Or.inr (Or.inr (Or.inr (Or.inl ⟨n, rfl, rfl, rfl⟩)))
  | enter | increment =>
    exact Or.inr (Or.inr (Or.inr (Or.inr ⟨⟨rfl, rfl, rfl, rfl, rfl⟩, Job.resume_reseeding _ _,
      Job.indifferent_resume _ _⟩)))
  | _ =>
    exact Or.inr (Or.inr (Or.inr (Or.inr ⟨⟨rfl, rfl, rfl, rfl, rfl⟩, rfl,
      ⟨fun _ _ _ _ h => (by cases h), fun _ _ _ h => (by cases h)⟩⟩)))

section Turn

omit [DecidableEq ι]

variable {reseeding : ι → Bool} {sh : Shared} {p q : ι}

theorem Turn.counts (h : Turn reseeding sh) (hnone : ∀ p, reseeding p = false) :
    sh.decisions = sh.completions := by
  rcases h with ⟨-, h⟩ | ⟨p, hp, -⟩
  · exact h
  · rw [hnone p] at hp
    cases hp

theorem Turn.owner (h : Turn reseeding sh) (hp : reseeding p = true) :
    (∀ q, q ≠ p → reseeding q = false) ∧ sh.decisions = sh.completions + 1 := by
  rcases h with ⟨hnone, -⟩ | ⟨p', hp', hothers, h⟩
  · rw [hnone p] at hp
    cases hp
  · have heq : p = p' := by
      by_contra hne
      rw [hothers p hne] at hp
      cases hp
    subst heq
    exact ⟨hothers, h⟩

end Turn

variable {p : ι}

theorem reseeding_update {procs : ι → Pc} {pc : Pc} (h : pc.reseeding = (procs p).reseeding) :
    (fun q => (update procs p pc q).reseeding) = fun q => (procs q).reseeding := by
  funext q
  by_cases hq : q = p
  · subst hq
    rw [update_self, h]
  · rw [update_of_ne hq]

theorem toInt_add_ofNat {w : Word} {k : ℕ} (h0 : 0 ≤ w.toInt) (h : w.toInt + k < 2 ^ 31) :
    (w + BitVec.ofNat 32 k).toInt = w.toInt + k := by
  have hw := w.isLt
  rw [BitVec.toInt_eq_toNat_cond] at h0 h ⊢
  rw [BitVec.toInt_eq_toNat_cond, BitVec.toNat_add, BitVec.toNat_ofNat]
  split at h0
  · rw [if_pos ‹_›] at h
    rw [if_pos (by omega)]
    omega
  · omega

namespace TurnInv

variable {σ : Sys ι} (h : TurnInv σ)
include h

omit [DecidableEq ι] in
theorem event {e : RandomEvent}
    (hfit : e.selected = some 0 → (σ.shared.pools 0).size.toInt + e.length < 2 ^ 31) :
    TurnInv { σ with shared := σ.shared.addEvent e } := by
  refine ⟨h.turn, fun p n r seed offset hp => ?_, h.read⟩
  have hfull := h.full p n r seed offset hp
  simp only [MIN_SIZE_POOL] at hfull ⊢
  have hsize : ((σ.shared.addEvent e).pools 0).size = (σ.shared.pools 0).size +
      BitVec.ofNat 32 (bytesInto 0 [e]) := e.addTo_size _ 0
  rw [hsize]
  by_cases hsel : e.selected = some 0
  · have hbytes : bytesInto 0 [e] = e.length := by simp [bytesInto, hsel]
    rw [hbytes, toInt_add_ofNat (by omega) (hfit hsel)]
    omega
  · have hbytes : bytesInto 0 [e] = 0 := by simp [bytesInto, hsel]
    rw [hbytes, BitVec.add_zero]
    exact hfull

omit [DecidableEq ι] in
theorem tick (hwrap : ∀ p n xticks done, σ.procs p = .ticked n xticks done →
      σ.shared.ticks + 1 ≠ σ.shared.prng.lastReseedTicks) :
    TurnInv { σ with shared := σ.shared.tick } := by
  refine ⟨h.turn, h.full, fun p n xticks done hp => ?_⟩
  obtain ⟨hdone, hle⟩ := h.read p n xticks done hp
  have hne := hwrap p n xticks done hp
  refine ⟨hdone, fun heq => ?_⟩
  have hle' := hle heq
  rw [Shared.tick_ticks, Shared.tick_prng]
  bv_omega

theorem call (n : ℕ) (hp : σ.procs p = .idle) :
    TurnInv { σ with procs := update σ.procs p (.start n) } := by
  have hstart : (Pc.start n).Indifferent :=
    ⟨fun _ _ _ _ h => (by cases h), fun _ _ _ h => (by cases h)⟩
  refine ⟨?_, Sys.forall_update (hstart.full _) fun q _ => h.full q,
    Sys.forall_update (hstart.read _) fun q _ => h.read q⟩
  have hsame : (Pc.start n).reseeding = (σ.procs p).reseeding := by
    rw [hp]
    rfl
  simp only [reseeding_update hsame]
  exact h.turn

theorem readTicks {n : ℕ} (hp : σ.procs p = .start n) :
    TurnInv ⟨σ.shared, update σ.procs p (.ticked n σ.shared.ticks σ.shared.completions),
      none⟩ := by
  have hsame : (Pc.ticked n σ.shared.ticks σ.shared.completions).reseeding =
      (σ.procs p).reseeding := by
    rw [hp]
    rfl
  refine ⟨?_, Sys.forall_update (fun _ _ _ _ hpc => by cases hpc) fun q _ => h.full q,
    Sys.forall_update (fun n' xticks done hpc => ?_) fun q _ => h.read q⟩
  · simp only [reseeding_update hsame]
    exact h.turn
  · cases hpc
    exact ⟨le_rfl, fun _ => BitVec.le_refl _⟩

theorem decide {n : ℕ} {xticks : Word} (r : Word) (seed : Page)
    (hdue : reseedDue (σ.shared.pools 0) xticks σ.shared.prng.lastReseedTicks)
    (hnone : ∀ q, (σ.procs q).reseeding = false) :
    TurnInv ⟨σ.shared.decideReseed, update σ.procs p (.draining n r seed 0 0), none⟩ := by
  refine ⟨Or.inr ⟨p, ?_, fun q hq => ?_, ?_⟩,
    Sys.forall_update (fun _ _ _ _ _ => hdue.1) fun q _ => h.full q,
    Sys.forall_update (fun _ _ _ hpc => by cases hpc) fun q _ => h.read q⟩
  · simp only [update_self]
    rfl
  · simp only [update_of_ne hq]
    exact hnone q
  · exact congrArg (· + 1) (h.turn.counts hnone)

theorem drain {pc : Pc} (i : Fin 32) (hp : (σ.procs p).reseeding = true)
    (hr : pc.reseeding = true) (hpc : pc.Indifferent) :
    TurnInv ⟨σ.shared.drain i, update σ.procs p pc, none⟩ := by
  refine ⟨?_, Sys.forall_update (hpc.full _) fun q hq n r seed offset hdrain => ?_,
    Sys.forall_update (hpc.read _) fun q _ => h.read q⟩
  · simp only [reseeding_update (hr.trans hp.symm)]
    exact h.turn
  · -- No other call is about to empty a pool.
    have hq' := (h.turn.owner hp).1 q hq
    simp only [hdrain] at hq'
    cases hq'

theorem stamp {n : ℕ} (hp : (σ.procs p).reseeding = true) :
    TurnInv ⟨σ.shared.stamp, update σ.procs p (.checking n), none⟩ := by
  obtain ⟨hothers, hcount⟩ := h.turn.owner hp
  refine ⟨Or.inl ⟨?_, hcount⟩, Sys.forall_update (fun _ _ _ _ hpc => by cases hpc) fun q _ => h.full q,
    Sys.forall_update (fun _ _ _ hpc => by cases hpc) fun q _ n' xticks done hq => ?_⟩
  · exact Sys.forall_update (Q := fun pc => pc.reseeding = false) rfl hothers
  · -- A reading made before is stale now.
    obtain ⟨hdone, -⟩ := h.read q n' xticks done hq
    refine ⟨Nat.le_succ_of_le hdone, fun heq => ?_⟩
    rw [Shared.stamp_completions] at heq
    omega

theorem quiet {sh : Shared} {pc : Pc} (hsh : σ.shared.SameTurn sh)
    (hr : pc.reseeding = (σ.procs p).reseeding) (hpc : pc.Indifferent) :
    TurnInv ⟨sh, update σ.procs p pc, none⟩ := by
  refine ⟨?_, Sys.forall_update (hpc.full _) fun q _ => hsh.full (h.full q),
    Sys.forall_update (hpc.read _) fun q _ => hsh.read (h.read q)⟩
  simp only [reseeding_update hr]
  exact hsh.turn h.turn

theorem step {a : Action ι} (ha : ReseedsInTurn σ a) : TurnInv (σ.step a) := by
  have hm := σ.step_moves a
  generalize σ.step a = σ' at hm
  cases hm with
  | stay => exact h
  | halt => exact ⟨h.turn, h.full, h.read⟩
  | event e => exact h.event (ha.events e rfl)
  | tick => exact h.tick (ha.ticks rfl)
  | call p n hp => exact h.call n hp
  | move p page sh pc hs hstep =>
    rcases (Pc.step_goes hstep).turn_cases with ⟨n, hp, rfl, rfl⟩ |
      ⟨n, xticks, done, r, seed, hp, hdue, rfl, rfl⟩ | ⟨n, r, seed, offset, i, hp, rfl, hr, hpc⟩ |
      ⟨n, hp, rfl, rfl⟩ | ⟨hsh, hr, hpc⟩
    · exact h.readTicks hp
    · exact h.decide r seed hdue (ha.decides p page n xticks done rfl hp hdue).1
    · exact h.drain i (by rw [hp]; rfl) hr hpc
    · exact h.stamp (by rw [hp]; rfl)
    · exact h.quiet hsh hr hpc

omit [DecidableEq ι] in
theorem timely {a : Action ι} (ha : ReseedsInTurn σ a) : ReseedsTimely σ a := by
  rintro p page rfl -
  refine ⟨h.full p, fun n xticks done hp hdue => ?_⟩
  obtain ⟨hnone, hdone⟩ := ha.decides p page n xticks done rfl hp hdue
  have hle := (h.read p n xticks done hp).2 hdone
  have hlt := hdue.2
  exact ⟨h.turn.counts hnone, by bv_omega⟩

end TurnInv

omit [DecidableEq ι] in
theorem turnInv_boot : TurnInv (Sys.boot : Sys ι) where
  turn := Or.inl ⟨fun _ => rfl, rfl⟩
  full _ _ _ _ _ h := by cases h
  read _ _ _ _ h := by cases h

theorem along_reseedsTimely (acts : List (Action ι))
    (h : Along Sys.step ReseedsInTurn Sys.boot acts) :
    Along Sys.step ReseedsTimely Sys.boot acts :=
  h.imp turnInv_boot (fun _ _ hσ ha => hσ.step ha) fun _ _ hσ ha => hσ.timely ha

section Idle

variable (sh : Shared)

omit [DecidableEq ι] in
theorem reseedsInTurn_idle {a : Action ι}
    (hfit : ∀ e, a = .event e → (sh.pools 0).size.toInt + e.length < 2 ^ 31) :
    ReseedsInTurn ⟨sh, fun _ => .idle, none⟩ a where
  decides _ _ _ _ _ _ hp := by cases hp
  ticks _ _ _ _ _ hp := by cases hp
  events e ha _ := hfit e ha

theorem along_inTurn_ticks (k : ℕ) : Along Sys.step ReseedsInTurn
    (⟨sh, fun _ => .idle, none⟩ : Sys ι) (List.replicate k .tick) := by
  induction k generalizing sh with
  | zero => trivial
  | succ k ih => exact ⟨reseedsInTurn_idle sh fun e he => (by cases he), ih sh.tick⟩

theorem along_inTurn_events (k : ℕ) (h0 : 0 ≤ (sh.pools 0).size.toInt)
    (h : (sh.pools 0).size.toInt + 34 * k < 2 ^ 31) : Along Sys.step ReseedsInTurn
      (⟨sh, fun _ => .idle, none⟩ : Sys ι) ((List.replicate k longEvent).map .event) := by
  induction k generalizing sh with
  | zero => trivial
  | succ k ih =>
    have hsize : ((sh.addEvent longEvent).pools 0).size.toInt = (sh.pools 0).size.toInt + 34 := by
      rw [Shared.addEvent_pools, RandomEvent.addTo_size]
      exact toInt_add_ofNat (k := 34) h0 (by omega)
    refine ⟨reseedsInTurn_idle sh fun e he => ?_, ih (sh.addEvent longEvent) (by omega) (by omega)⟩
    cases he
    exact show (sh.pools 0).size.toInt + (34 : ℕ) < 2 ^ 31 by omega

end Idle

theorem along_inTurn_wake : Along Sys.step ReseedsInTurn (Sys.boot : Sys ι) wake := by
  rw [wake, along_append, Sys.boot, run_events]
  exact ⟨along_inTurn_events _ 3 (by decide) (by decide), along_inTurn_ticks _ 11⟩

theorem Pc.Goes.fresh {sh sh' : Shared} {page : Page} {pc pc' : Pc}
    (h : pc.Goes sh page sh' pc') (n : ℕ) (xticks : Word) (done : ℕ)
    (hpc : pc' = .ticked n xticks done) : done = sh'.completions := by
  rcases h.turn_cases with ⟨m, -, rfl, rfl⟩ | ⟨m, x, d, r, seed, -, -, -, rfl⟩ |
    ⟨m, r, seed, offset, i, -, -, -, hind⟩ | ⟨m, -, -, rfl⟩ | ⟨-, -, hind⟩
  · cases hpc
    rfl
  · cases hpc
  · exact absurd hpc (hind.ticked n xticks done)
  · cases hpc
  · exact absurd hpc (hind.ticked n xticks done)

theorem Pc.Solo.along_inTurn {sh sh' : Shared} {pc pc' : Pc} {pages : List Page}
    (h : Pc.Solo sh pc pages sh' pc') {p : ι} {procs : ι → Pc} (hp : procs p = pc)
    (hothers : ∀ q, q ≠ p → (procs q).reseeding = false)
    (hfresh : ∀ n xticks done, pc = .ticked n xticks done → done = sh.completions) :
    Along Sys.step ReseedsInTurn ⟨sh, procs, none⟩ (pages.map (.run p)) := by
  induction h generalizing procs with
  | nil => trivial
  | cons page hstep hrest ih =>
    rw [← hp] at hstep
    constructor
    · refine ⟨fun p' page' n xticks done ha hp' _ => ?_, fun ha => (by cases ha),
        fun e ha => (by cases ha)⟩
      cases ha
      refine ⟨fun q => ?_, hfresh n xticks done (hp.symm.trans hp')⟩
      by_cases hq : q = p
      · subst hq
        exact congrArg Pc.reseeding hp'
      · exact hothers q hq
    · rw [Sys.step_run_ok rfl hstep]
      refine ih (update_self ..) (fun q hq => ?_) (Pc.step_goes hstep).fresh
      rw [update_of_ne hq]
      exact hothers q hq

theorem along_reseedsTimely_first : ∃ acts : List (Action (Fin 2)),
    Along Sys.step ReseedsInTurn Sys.boot acts ∧ Along Sys.step ReseedsTimely Sys.boot acts ∧
      (run Sys.step Sys.boot acts).shared.completions = 1 := by
  obtain ⟨pages, key, hsolo⟩ := solo_reseed 1 0 reseedDue_awake sizeOk_awake
  have hread : (Pc.start 1).step Shared.awake noPage = .ok (Shared.awake, .ticked 1 11 0) := rfl
  have hcall := Pc.Solo.cons _ hread hsolo
  have hstart : update (fun _ : Fin 2 => Pc.idle) 0 (.start 1) 0 = .start 1 :=
    update_self ..
  have h : Along Sys.step ReseedsInTurn Sys.boot
      (wake ++ .call 0 1 :: (noPage :: pages).map (Action.run (0 : Fin 2))) := by
    rw [along_append, run_wake]
    refine ⟨along_inTurn_wake, reseedsInTurn_idle _ fun e he => (by cases he), ?_⟩
    refine hcall.along_inTurn hstart (fun q hq => ?_) fun n xticks done hpc => (by cases hpc)
    rw [update_of_ne hq]
    rfl
  refine ⟨_, h, along_reseedsTimely _ h, ?_⟩
  rw [run_append, run_wake, run_cons]
  exact congrArg (fun σ => σ.shared.completions) (hcall.run (0 : Fin 2) _ hstart)

theorem decide_twice {sh : Shared} {procs : ι → Pc} {p q : ι} (hpq : q ≠ p) {n done : ℕ}
    {xticks : Word} (hp : procs p = .ticked n xticks done) (hq : procs q = .ticked n xticks done)
    (hdue : reseedDue (sh.pools 0) xticks sh.prng.lastReseedTicks)
    (hok : Hash.sizeOk (sh.pools 0).hashLength) :
    ∃ procs' r seed, run Sys.step ⟨sh, procs, none⟩ [.run p noPage, .run q noPage, .run p noPage] =
      ⟨sh.decideReseed.decideReseed.drain 0, procs', none⟩ ∧
      procs' q = .draining n r seed 0 0 := by
  have hfirst := Sys.step_run_at hp (Pc.step_decide sh noPage n done hdue)
  generalize hprocs : update procs p _ = procs₁ at hfirst
  have hp₁ : procs₁ p = .draining n (sh.prng.reseedCtr + 1) (fun _ => 0) 0 0 := by
    rw [← hprocs, update_self]
    rfl
  have hq₁ : procs₁ q = .ticked n xticks done := by
    rw [← hprocs, update_of_ne hpq, hq]
  have hsecond := Sys.step_run_at hq₁ (Pc.step_decide sh.decideReseed noPage n done hdue)
  generalize hprocs₂ : update procs₁ q _ = procs₂ at hsecond
  have hp₂ : procs₂ p = .draining n (sh.prng.reseedCtr + 1) (fun _ => 0) 0 0 := by
    rw [← hprocs₂, update_of_ne hpq.symm, hp₁]
  have hq₂ : procs₂ q = .draining n (sh.prng.reseedCtr + 1 + 1) (fun _ => 0) 0 0 := by
    rw [← hprocs₂, update_self]
    rfl
  obtain ⟨seed, hstep⟩ := Pc.step_drain sh.decideReseed.decideReseed noPage n
    (sh.prng.reseedCtr + 1) (fun _ => 0) 0 (i := 0) hok
  have hdrain := Sys.step_run_at hp₂ hstep
  generalize hprocs₃ : update procs₂ p _ = procs₃ at hdrain
  refine ⟨procs₃, sh.prng.reseedCtr + 1 + 1, fun _ => 0, ?_, ?_⟩
  · rw [run_cons, hfirst, run_cons, hsecond, run_cons, hdrain, run_nil]
  · rw [← hprocs₃, update_of_ne hpq, hq₂]

theorem run_read_both : ∃ procs : Fin 2 → Pc,
    run Sys.step ⟨Shared.awake, fun _ => .idle, none⟩
      [.call 0 1, .call 1 1, .run 0 noPage, .run 1 noPage] = ⟨Shared.awake, procs, none⟩ ∧
    procs 0 = .ticked 1 11 0 ∧ procs 1 = .ticked 1 11 0 :=
  ⟨_, rfl, rfl, rfl⟩

/-- The second call empties a pool 0 that the first has just emptied. -/
theorem not_along_reseedsTimely : ∃ acts : List (Action (Fin 2)),
    ¬ Along Sys.step ReseedsTimely Sys.boot acts := by
  obtain ⟨procs₀, hread, h0, h1⟩ := run_read_both
  obtain ⟨procs, r, seed, hrun, hprocs⟩ :=
    decide_twice (by decide) h0 h1 reseedDue_awake (sizeOk_awake 0)
  refine ⟨wake ++ ([Action.call 0 1, Action.call 1 1, Action.run 0 noPage, Action.run 1 noPage] ++
    ([Action.run 0 noPage, Action.run 1 noPage, Action.run 0 noPage] ++ [Action.run 1 noPage])), ?_⟩
  rw [along_append, run_wake, along_append, hread, along_append, hrun, along_singleton]
  rintro ⟨-, -, -, htimely⟩
  have hfull := (htimely 1 noPage rfl rfl).1 1 r seed 0 hprocs
  rw [Shared.drain_pools, update_self, EntropyPool.drain_size] at hfull
  exact absurd hfull (by decide)

end Xv6Prng
