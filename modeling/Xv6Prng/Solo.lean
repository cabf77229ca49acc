import Xv6Prng.Interleaving
import Xv6Prng.Reseed

/-!
# Calls that are not interrupted

`Solo` chains the steps of one process. A request that no other process interrupts takes
the generator to where `prngrand` takes it, so the steps are those of the sequential
model; and a reseed that is not interrupted drains all pools and increments the counter
once. The runs of one process on an idle system are built from these two.
-/

namespace Xv6Prng

open ByteWords Halting Runs Function

/-- The steps of one call, one for each page offered. -/
inductive Pc.Solo : Shared → Pc → List Page → Shared → Pc → Prop
  | nil (sh : Shared) (pc : Pc) : Solo sh pc [] sh pc
  | cons {sh sh₁ sh₂ : Shared} {pc pc₁ pc₂ : Pc} (page : Page) {pages : List Page}
      (h : pc.step sh page = .ok (sh₁, pc₁)) (hs : Solo sh₁ pc₁ pages sh₂ pc₂) :
      Solo sh pc (page :: pages) sh₂ pc₂

namespace Pc.Solo

variable {sh sh₁ sh₂ : Shared} {pc pc₁ pc₂ : Pc} {pages pages₁ pages₂ : List Page}

theorem append (h₁ : Solo sh pc pages₁ sh₁ pc₁) (h₂ : Solo sh₁ pc₁ pages₂ sh₂ pc₂) :
    Solo sh pc (pages₁ ++ pages₂) sh₂ pc₂ := by
  induction h₁ with
  | nil => exact h₂
  | cons page h _ ih => exact .cons page h (ih h₂)

theorem single {page : Page} (h : pc.step sh page = .ok (sh₁, pc₁)) :
    Solo sh pc [page] sh₁ pc₁ := .cons page h (.nil _ _)

theorem run {ι : Type} [DecidableEq ι] (h : Solo sh pc pages sh₁ pc₁) (p : ι) (procs : ι → Pc)
    (hp : procs p = pc) :
    Runs.run Sys.step ⟨sh, procs, none⟩ (pages.map (Action.run p)) =
      ⟨sh₁, update procs p pc₁, none⟩ := by
  induction h generalizing procs with
  | nil sh pc => simp [← hp]
  | cons page h _ ih =>
    subst hp
    rw [List.map_cons, run_cons, Sys.step_run_ok (σ := ⟨_, procs, none⟩) rfl h,
      ih _ (update_self ..), update_idem]

end Pc.Solo

def noPage : Page := fun _ => 0

namespace Shared

def block (sh : Shared) : Shared := (sh.use sh.prng.key).incr

structure After (sh : Shared) (n : ℕ) (sh' : Shared) : Prop where
  prng : sh'.prng = sh.prng.setCounter (Counter.incrctr^[n] sh.prng.counter)
  pools : sh'.pools = sh.pools
  ticks : sh'.ticks = sh.ticks
  increments : sh'.increments = sh.increments + n
  decisions : sh'.decisions = sh.decisions
  completions : sh'.completions = sh.completions

theorem after_block (sh : Shared) (n : ℕ) : After sh n (block^[n] sh) := by
  induction n with
  | zero => exact ⟨rfl, rfl, rfl, rfl, rfl, rfl⟩
  | succ n ih =>
    rw [iterate_succ_apply']
    refine ⟨?_, ih.pools, ih.ticks, ?_, ih.decisions, ih.completions⟩
    · simp only [block, incr_prng, use_prng, ih.prng, iterate_succ_apply']
      rfl
    · simp only [block, incr_increments, use_increments, ih.increments]
      omega

end Shared

open Shared in
theorem solo_block (sh : Shared) (job : Job) (out : List Aes.Block)
    (h : out.length < job.blocks) :
    Pc.Solo sh (job.resume out) (List.replicate 3 noPage) sh.block
      (job.resume (out ++ [encryptCounter sh.prng.key sh.prng.counter])) := by
  rw [Job.resume, if_pos h]
  exact .cons _ rfl (.cons _ rfl (.cons _ rfl (.nil _ _)))

open Shared in
theorem solo_blocks (job : Job) (n : ℕ) (sh : Shared) (out : List Aes.Block)
    (h : out.length + n ≤ job.blocks) :
    Pc.Solo sh (job.resume out) (List.replicate (3 * n) noPage) (block^[n] sh)
      (job.resume (out ++ cipherBlocks sh.prng.key sh.prng.counter n)) := by
  induction n with
  | zero =>
    rw [cipherBlocks, CounterMode.blocks, List.range_zero, List.map_nil, List.append_nil]
    exact .nil _ _
  | succ n ih =>
    have hafter := after_block sh n
    have hlen : (out ++ cipherBlocks sh.prng.key sh.prng.counter n).length < job.blocks := by
      simp only [cipherBlocks, CounterMode.blocks, List.length_append, List.length_map,
        List.length_range]
      omega
    have hstep := solo_block (block^[n] sh) job _ hlen
    rw [hafter.prng] at hstep
    rw [iterate_succ_apply', Nat.mul_add, List.replicate_add, cipherBlocks,
      CounterMode.blocks_succ, ← List.append_assoc]
    exact (ih (by omega)).append hstep

theorem solo_genblocks (sh : Shared) (job : Job) (hc : sh.prng.counter.c0 ≠ 0) :
    ∃ pages, Pc.Solo sh (.entering job) pages (Shared.block^[job.blocks] sh)
      (if job.rekeying then
        .installing job.size (cipherBlocks sh.prng.key sh.prng.counter job.blocks)
      else .copying job.size) := by
  have henter : (Pc.entering job).step sh noPage = .ok (sh, job.resume []) := by
    rw [Pc.step, if_neg hc]
  have hblocks := solo_blocks job job.blocks sh [] (by simp)
  have hend : job.resume ([] ++ cipherBlocks sh.prng.key sh.prng.counter job.blocks) =
      if job.rekeying then
        .installing job.size (cipherBlocks sh.prng.key sh.prng.counter job.blocks)
      else .copying job.size := by
    rw [Job.resume, if_neg (by simp [cipherBlocks, CounterMode.blocks])]
    rfl
  rw [hend] at hblocks
  exact ⟨_, .cons noPage henter hblocks⟩

section Request

variable {sh : Shared} {n : ℕ}

def Shared.request (sh : Shared) (n : ℕ) : Shared :=
  let sh₁ := Shared.block^[numblocks n] sh
  (Shared.block^[2] sh₁).setKey (keyOf (cipherBlocks sh₁.prng.key sh₁.prng.counter 2))

theorem keyOf_cipherBlocks (key : Buffer 32) (c : Counter) (i : Fin 32) :
    keyOf (cipherBlocks key c 2) i = keystream key c i.val := by
  have hi : i.val / 16 < 2 := by omega
  have hget : (cipherBlocks key c 2)[i.val / 16]? =
      some (encryptCounter key (Counter.incrctr^[i.val / 16] c)) := by
    rw [cipherBlocks, CounterMode.blocks, List.getElem?_map, List.getElem?_range hi]
    rfl
  rw [keyOf, hget, Option.map_some, Option.getD_some, ← keystream_block]
  congr 1
  exact Nat.div_add_mod i.val 16

theorem request_prng (sh : Shared) (n : ℕ) : (sh.request n).prng =
    (sh.prng.setCounter (Counter.incrctr^[numblocks n + 2] sh.prng.counter)).setKey fun i =>
      keystream sh.prng.key sh.prng.counter (16 * numblocks n + i.val) := by
  have h₁ := Shared.after_block sh (numblocks n)
  have h₂ := Shared.after_block (Shared.block^[numblocks n] sh) 2
  have hkey : keyOf (cipherBlocks (Shared.block^[numblocks n] sh).prng.key
      (Shared.block^[numblocks n] sh).prng.counter 2) = fun i =>
      keystream sh.prng.key sh.prng.counter (16 * numblocks n + i.val) := by
    funext i
    rw [keyOf_cipherBlocks, h₁.prng]
    exact CounterMode.byte_iterate _ _ _ _ _
  rw [Shared.request, Shared.setKey_prng, hkey, h₂.prng, h₁.prng, Nat.add_comm,
    iterate_add_apply]
  rfl

theorem request_frame (sh : Shared) (n : ℕ) : (sh.request n).pools = sh.pools ∧
    (sh.request n).increments = sh.increments + numblocks n + 2 ∧
    (sh.request n).decisions = sh.decisions ∧ (sh.request n).completions = sh.completions := by
  have h₁ := Shared.after_block sh (numblocks n)
  have h₂ := Shared.after_block (Shared.block^[numblocks n] sh) 2
  exact ⟨h₂.pools.trans h₁.pools, h₂.increments.trans (by rw [h₁.increments]),
    h₂.decisions.trans h₁.decisions, h₂.completions.trans h₁.completions⟩

theorem solo_generate (sh : Shared) {n : ℕ} (hn : 0 < n) (hn' : n < 4096)
    (hr : sh.prng.reseedCtr ≠ 0) (hc : sh.prng.counter.c0 ≠ 0)
    (hc' : (Counter.incrctr^[numblocks n] sh.prng.counter).c0 ≠ 0) :
    ∃ pages, Pc.Solo sh (.checking n) pages (sh.request n) .idle := by
  have h₁ := Shared.after_block sh (numblocks n)
  have hcheck : (Pc.checking n).step sh noPage = .ok (sh, .entering ⟨n, false⟩) := by
    rw [Pc.step, if_neg hr, if_neg (by omega)]
  have hcopy : (Pc.copying n).step (Shared.block^[numblocks n] sh) noPage =
      .ok (Shared.block^[numblocks n] sh, .entering ⟨n, true⟩) := by
    rw [Pc.step, if_neg (by omega)]
  have hhand : (Pc.handing n).step (sh.request n) noPage = .ok (sh.request n, .idle) := by
    rw [Pc.step, if_neg (by omega)]
  obtain ⟨pages₁, hdata⟩ := solo_genblocks sh ⟨n, false⟩ hc
  obtain ⟨pages₂, hkey⟩ := solo_genblocks (Shared.block^[numblocks n] sh) ⟨n, true⟩ (by
    rw [h₁.prng]
    exact hc')
  exact ⟨_, .cons _ hcheck (hdata.append (.cons _ hcopy
    (hkey.append (.cons noPage rfl (.single hhand)))))⟩

theorem solo_skip (n : ℕ) (hd : ¬ reseedDue (sh.pools 0) sh.ticks sh.prng.lastReseedTicks) :
    Pc.Solo sh (.start n) [noPage, noPage] sh (.checking n) := by
  refine .cons _ rfl (.single ?_)
  rw [Pc.step, if_neg hd]

end Request

def Kernel.shared {L : Layout} (s : Kernel L) : Shared :=
  { Shared.initial with prng := s.prng, pools := s.entropy.pools, ticks := s.ticks }

theorem prngrand_solo {L : Layout} {s : Kernel L} {n : ℕ} (output : Word) (h : Ready s n)
    (hn : 0 < n) (hn' : n < 4096) (hw : numblocks n ≠ s.prng.counter.wrapDistance) :
    Returns (prngrand output n) s fun _ s' =>
      ∃ pages sh, Pc.Solo s.shared (.start n) pages sh .idle ∧ sh.prng = s'.prng := by
  have hc' := mt h.c0_eq_zero_iff.mp hw
  obtain ⟨d, a, b, q, rest, hl⟩ := h.four hn
  obtain ⟨r, s', hrun, free, mem, hsees⟩ := generate_sees output h.sees hl h.reseeded h.seeded
    hn hn' hc'
  obtain ⟨pages, hsolo⟩ := solo_generate s.shared hn hn' h.reseeded h.seeded hc'
  refine ⟨r, s', by rw [prngrand_eq_generate h.unlocked h.notDue, hrun], _, _,
    (solo_skip n h.notDue).append hsolo, ?_⟩
  rw [request_prng, hsees.prng]
  rfl

theorem prngrand_solo_atRest :
    Returns (prngrand 0x1000 10) (Kernel.atRest Prng.seeded FreeList.least) fun _ s' =>
      ∃ pages sh, Pc.Solo (Kernel.atRest Prng.seeded FreeList.least).shared (.start 10) pages sh
        .idle ∧ sh.prng = s'.prng :=
  prngrand_solo 0x1000 (ready_atRest (by decide) (by decide)) (by decide) (by decide) (by decide)

def Shared.drainFrom (sh : Shared) (j : ℕ) : Shared :=
  { sh with pools := fun i => if j ≤ i.val then (sh.pools i).drain else sh.pools i }

theorem drain_drainFrom (sh : Shared) (i : Fin 32) :
    (sh.drain i).drainFrom (i.val + 1) = sh.drainFrom i.val := by
  have hpools : ((sh.drain i).drainFrom (i.val + 1)).pools = (sh.drainFrom i.val).pools := by
    funext j
    simp only [Shared.drainFrom, Shared.drain]
    by_cases hj : j = i
    · subst hj
      simp
    · have hne : j.val ≠ i.val := fun h => hj (Fin.ext h)
      simp only [update_of_ne hj]
      by_cases hle : i.val ≤ j.val
      · rw [if_pos (by omega), if_pos hle]
      · rw [if_neg (by omega), if_neg hle]
  simp only [Shared.drainFrom, Shared.drain, Shared.mk.injEq, true_and, and_true] at hpools ⊢
  exact hpools

theorem drainFrom_all (sh : Shared) : sh.drainFrom 32 = sh := by
  have hpools : (sh.drainFrom 32).pools = sh.pools := by
    funext i
    exact if_neg (by omega)
  simp only [Shared.drainFrom] at hpools ⊢
  rw [hpools]

theorem solo_drain (n : ℕ) (r : Word) (k : ℕ) (sh : Shared) (seed : Page) (offset i : ℕ)
    (hi : i + k = 32) (hok : ∀ j : Fin 32, i ≤ j.val → Hash.sizeOk (sh.pools j).hashLength) :
    ∃ pages seed', Pc.Solo sh (.atPool n r seed offset i) pages (sh.drainFrom i)
      (.seeding n seed' (offset + 32 * k)) := by
  induction k generalizing sh seed offset i with
  | zero =>
    obtain rfl : i = 32 := by omega
    refine ⟨[], seed, ?_⟩
    rw [Pc.atPool, dif_neg (by decide), drainFrom_all]
    exact .nil _ _
  | succ k ih =>
    have hlt : i < MAX_POOLS := by
      simp only [MAX_POOLS]
      omega
    obtain ⟨seed₁, hstep⟩ := Pc.step_drain sh noPage n r seed offset (hok ⟨i, hlt⟩ le_rfl)
    obtain ⟨pages, seed', hrest⟩ := ih (sh.drain ⟨i, hlt⟩) seed₁ (offset + 32) (i + 1) (by omega) (by
      intro j hj
      have hne : j ≠ ⟨i, hlt⟩ := by
        rintro rfl
        simp at hj
      rw [Shared.drain_pools, update_of_ne hne]
      exact hok j (by omega))
    refine ⟨noPage :: pages, seed', ?_⟩
    rw [Pc.atPool, dif_pos hlt, ← drain_drainFrom sh ⟨i, hlt⟩,
      show offset + 32 * (k + 1) = offset + 32 + 32 * k by omega]
    exact .cons noPage hstep hrest

def Shared.reseeded (sh : Shared) (key : Buffer 32) : Shared :=
  (((sh.decideReseed.drainFrom 0).setKey key).incr).stamp

theorem solo_reseed {sh : Shared} {xticks : Word} (n done : ℕ)
    (hd : reseedDue (sh.pools 0) xticks sh.prng.lastReseedTicks)
    (hok : ∀ j, Hash.sizeOk (sh.pools j).hashLength) :
    ∃ pages key, Pc.Solo sh (.ticked n xticks done) pages (sh.reseeded key) (.checking n) := by
  obtain ⟨pages, seed, hdrain⟩ := solo_drain n (sh.prng.reseedCtr + 1) 32 sh.decideReseed
    (fun _ => 0) 0 0 rfl fun j _ => hok j
  obtain ⟨key, hseed⟩ : ∃ key, (Pc.seeding n seed (0 + 32 * 32)).step
      (sh.decideReseed.drainFrom 0) noPage =
        .ok ((sh.decideReseed.drainFrom 0).setKey key, .bumping n) :=
    ⟨_, by rw [Pc.step, if_pos ((Hash.sizeOk_iff _).mpr (by decide))]⟩
  exact ⟨_, key, .cons noPage (Pc.step_decide _ _ n done hd) (hdrain.append (.cons _ hseed
    (.cons noPage rfl (.cons noPage rfl (.nil _ _)))))⟩

section First

variable {ι : Type} [DecidableEq ι]

theorem run_events (events : List RandomEvent) (sh : Shared) (procs : ι → Pc) :
    run Sys.step ⟨sh, procs, none⟩ (events.map Action.event) =
      ⟨{ sh with pools := events.foldl (fun pools e => e.addTo pools) sh.pools }, procs, none⟩ := by
  induction events generalizing sh with
  | nil => rfl
  | cons e events ih => exact ih (sh.addEvent e)

theorem run_ticks (n : ℕ) (sh : Shared) (procs : ι → Pc) :
    run Sys.step ⟨sh, procs, none⟩ (List.replicate n Action.tick) =
      ⟨{ sh with ticks := sh.ticks + BitVec.ofNat 32 n }, procs, none⟩ := by
  induction n generalizing sh with
  | zero => simp
  | succ n ih =>
    have hticks : sh.ticks + 1 + BitVec.ofNat 32 n = sh.ticks + BitVec.ofNat 32 (n + 1) := by
      bv_omega
    rw [← hticks]
    exact ih sh.tick

def wake : List (Action ι) :=
  (List.replicate 3 longEvent).map .event ++ List.replicate 11 .tick

def Shared.awake : Shared :=
  { Shared.initial with pools := poolsAfter (List.replicate 3 longEvent), ticks := 11 }

theorem run_wake :
    run Sys.step (Sys.boot (ι := ι)) wake = ⟨Shared.awake, fun _ => .idle, none⟩ := by
  rw [wake, run_append, Sys.boot, run_events, run_ticks]
  rfl

theorem reseedDue_awake : reseedDue (Shared.awake.pools 0) 11 0 := by
  have hsize : (Shared.awake.pools 0).size = _ := poolsAfter_replicate 3
  refine ⟨?_, by decide⟩
  rw [hsize]
  decide

theorem sizeOk_awake (j : Fin 32) : Hash.sizeOk (Shared.awake.pools j).hashLength := by
  have hselected : longEvent.selected = some 0 := rfl
  have hlength : longEvent.length = 34 := rfl
  have hsize : (Shared.awake.pools j).size = _ := poolsAfter_size _ j
  rw [sizeOk_hashLength, hsize]
  by_cases hj : 0 = j
  · simp [bytesInto, hselected, hlength, hj]
  · simp [bytesInto, hselected, hj]

theorem first_reseed (p : ι) (n : ℕ) : ∃ acts key, run Sys.step Sys.boot acts =
    ⟨Shared.awake.reseeded key, update (fun _ => .idle) p (.checking n), none⟩ := by
  obtain ⟨pages, key, hsolo⟩ := solo_reseed n 0 reseedDue_awake sizeOk_awake
  have hread : (Pc.start n).step Shared.awake noPage = .ok (Shared.awake, .ticked n 11 0) := rfl
  have hrun := (Pc.Solo.cons _ hread hsolo).run p
    (update (fun _ => .idle) p (.start n)) (update_self ..)
  refine ⟨wake ++ .call p n :: (noPage :: pages).map (Action.run p), key, ?_⟩
  rw [run_append, run_wake, run_cons]
  rw [update_idem] at hrun
  exact hrun

end First

end Xv6Prng
