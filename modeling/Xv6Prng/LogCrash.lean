import Xv6Prng.Log

/-!
# Crash atomicity of the log

A block write is atomic, and writes reach the disk in program order: a crash leaves the
disk as it was before the first of them or after one of them. For every log on the disk
and every list of operations that write outside it:

* `recoverFromLog_returns`: recovery always ends, and the disk is then what it stood for;
* `transaction_ends`: a transaction that ends well has all its contents on the disk;
* `transaction_atomic`: after a crash, and however often recovery is cut off, recovery leaves
  all the old contents or all the new ones.
-/

namespace Xv6Prng.Fs

open ByteWords Halting RedoLog Function

structure Installed (L : Log) (base : Disk) (dirty : Finset Word) (S : Disk → Prop) (t : ℕ)
    (m : Machine) : Prop where
  cached : ∃ view, Cached m view (dirty \ ((L.blocks base).take t).toFinset) ∅
  disk : m.disk = install base ((L.format.entries base).take t)
  lh : m.lh = L.blocks base
  outstanding : m.outstanding = 0
  crash : ∀ d ∈ m.crashDisks, S d

structure Erased (L : Log) (c : Disk) (S : Disk → Prop) (m : Machine) : Prop where
  cached : Cached m m.disk ∅ ∅
  lh : m.lh = []
  outstanding : m.outstanding = 0
  blocks : L.blocks m.disk = []
  disk : Set.EqOn m.disk c L.areaᶜ
  crash : ∀ d ∈ m.crashDisks, S d

variable {view : Disk} {b : Word} {t : ℕ}

section Install

variable {L : Log} {base : Disk} {dirty : Finset Word} {S : Disk → Prop} {m : Machine}

theorem Wrote.crash {data : DiskBlock} {m' : Machine} (h : Wrote m b data m')
    (hm : ∀ d ∈ m.crashDisks, S d) (hd : S m'.disk) : ∀ d ∈ m'.crashDisks, S d := by
  intro d hmem
  rw [h.crashDisks, List.mem_append, List.mem_singleton] at hmem
  cases hmem with
  | inl hold => exact hm d hold
  | inr hnew => exact hnew ▸ hd

theorem sdiff_take_succ {bs : List Word} (ht : t < bs.length) :
    (dirty \ (bs.take t).toFinset) \ {bs[t]} = dirty \ (bs.take (t + 1)).toFinset := by
  rw [← List.take_append_getElem ht, List.toFinset_append, ← Finset.sup_eq_union,
    ← sdiff_sdiff_left]
  rfl

theorem Loggable.room {bs : List Word} (hlog : Loggable L bs)
    (hdirty : dirty = ∅ ∨ dirty = bs.toFinset) (ht : t < bs.length) :
    bs[t] ∈ dirty \ (bs.take t).toFinset ∨ (dirty \ (bs.take t).toFinset).card + 1 < NBUF := by
  cases hdirty with
  | inl hempty => simp [hempty]
  | inr hblocks =>
    refine Or.inl (Finset.mem_sdiff.mpr ⟨by simp [hblocks], fun hm => ?_⟩)
    obtain ⟨k, hk, hkt⟩ := List.mem_take_iff_getElem.mp (List.mem_toFinset.mp hm)
    have hkeq := hlog.nodup.getElem_inj_iff.mp hkt
    omega

theorem Installed.view_slot {i : ℕ} (h : Installed L base dirty S t m)
    (hc : Cached m view (dirty \ ((L.blocks base).take t).toFinset) ∅)
    (hlog : Loggable L (L.blocks base)) (hdirty : dirty = ∅ ∨ dirty = (L.blocks base).toFinset)
    (hi : i + 1 < L.size) : view (L.slot i) = base (L.slot i) := by
  have hnot : L.slot i ∉ L.blocks base := hlog.notMem (Log.slot_mem hi)
  have hclean : L.slot i ∉ dirty := by
    cases hdirty with
    | inl hempty => simp [hempty]
    | inr hblocks => simpa [hblocks] using hnot
  rw [hc.rest _ (fun hm => hclean (Finset.mem_sdiff.mp hm).1) (by simp), h.disk]
  exact install_of_notMem (L.format.notMem_take base hnot) base

theorem installBlock_ends (hlog : Loggable L (L.blocks base))
    (hdirty : dirty = ∅ ∨ dirty = (L.blocks base).toFinset)
    (hS : ∀ t, S (install base ((L.format.entries base).take t))) (ht : t < (L.blocks base).length)
    (h : Installed L base dirty S t m) :
    Ends (installBlock L t ()) m (fun _ => Installed L base dirty S (t + 1))
      fun _ m' => (∀ d ∈ m'.crashDisks, S d) ∧ NBUF ≤ dirty.card := by
  obtain ⟨view, hc⟩ := h.cached
  have hslot : t + 1 < L.size := (Nat.succ_le_of_lt ht).trans_lt hlog.fits
  obtain ⟨hout, hb⟩ := hlog.home _ (List.getElem_mem ht)
  have hne : L.slot t ≠ (L.blocks base)[t] := fun heq => hout (heq ▸ Log.slot_mem hslot)
  have hsub : (dirty \ ((L.blocks base).take t).toFinset).card ≤ dirty.card :=
    Finset.card_le_card Finset.sdiff_subset
  apply ends_get_bind
  rw [h.lh, List.getD_eq_getElem _ _ ht]
  refine hc.bread_two hne (Log.lt_fssize (Log.slot_mem hslot)) hb (hlog.room hdirty ht)
    (fun i j m₁ hg => ?_) fun e m' hcrash hcard => ⟨hcrash ▸ h.crash, hcard.trans hsub⟩
  refine ((hg.cached.copy rfl hg.first hg.second hne fun hm => ?_).mono
    fun _ m₂ ⟨hw, hc₂⟩ => ?_).ends
  · rw [hg.disk]
    exact hc.rest _ hm (by simp)
  · have hlen : t < (L.format.entries base).length := (Log.length_entries base).symm ▸ ht
    have hdisk : m₂.disk = install base ((L.format.entries base).take (t + 1)) := by
      rw [install_take_succ base hlen, Log.entries_getElem base ht hlen, hw.disk,
        h.view_slot hc hlog hdirty hslot, hg.disk, h.disk]
    rw [sdiff_take_succ ht] at hc₂
    refine ⟨⟨_, hc₂⟩, hdisk, hw.lh.trans (hg.lh.trans h.lh),
      hw.outstanding.trans (hg.outstanding.trans h.outstanding), ?_⟩
    exact hw.crash (hg.crashDisks ▸ h.crash) (hdisk ▸ hS (t + 1))

theorem installTrans_ends (hlog : Loggable L (L.blocks base))
    (hdirty : dirty = ∅ ∨ dirty = (L.blocks base).toFinset)
    (hS : ∀ t, S (install base ((L.format.entries base).take t)))
    (h : Installed L base dirty S 0 m) :
    Ends (installTrans L) m (fun _ => Installed L base dirty S (L.blocks base).length)
      fun _ m' => (∀ d ∈ m'.crashDisks, S d) ∧ NBUF ≤ dirty.card := by
  apply ends_get_bind
  have hloop := forLoop_ends (fun t _ => Installed L base dirty S t) (n := m.lh.length) (b := ()) h
    fun t _ m' _ ht h' => installBlock_ends hlog hdirty hS (by rwa [h.lh, Nat.zero_add] at ht) h'
  rw [Nat.zero_add] at hloop
  rw [h.lh] at hloop ⊢
  exact hloop

theorem Cached.view_eq (h : Cached m view ∅ ∅) : view = m.disk :=
  funext fun b => h.rest b (Finset.notMem_empty b) fun i hi => absurd hi (Finset.notMem_empty i)

/-- A disk whose log is sound and which stands for `c`, the log area apart. -/
def StandsFor (L : Log) (c d : Disk) : Prop :=
  Loggable L (L.blocks d) ∧ Set.EqOn (L.format.replay d) c L.areaᶜ

theorem standsFor_of_empty {c d : Disk} (hempty : L.blocks d = []) (hd : Set.EqOn d c L.areaᶜ) :
    StandsFor L c d := by
  constructor
  · rw [hempty]
    exact loggable_nil L
  · rwa [L.format.replay_of_empty d hempty]

theorem standsFor_install_take (hlog : Loggable L (L.blocks base)) (t : ℕ) :
    StandsFor L (L.format.replay base) (install base ((L.format.entries base).take t)) := by
  have hblocks : L.blocks (install base ((L.format.entries base).take t)) = L.blocks base :=
    congrArg headerBlocks
      (install_of_notMem (L.format.notMem_take base (hlog.notMem L.start_mem)) base)
  constructor
  · rw [hblocks]
    exact hlog
  · rw [L.format.replay_install_take base hlog.apart]
    exact Set.eqOn_refl _ _

theorem install_erase_ends (hlog : Loggable L (L.blocks base))
    (hdirty : dirty = ∅ ∨ dirty = (L.blocks base).toFinset)
    (hS : ∀ d, StandsFor L (L.format.replay base) d → S d) (h : Installed L base dirty S 0 m) :
    Ends (do installTrans L; modify fun m => { m with lh := [] }; writeHead L) m
      (fun _ => Erased L (L.format.replay base) S)
      fun _ m' => (∀ d ∈ m'.crashDisks, S d) ∧ NBUF ≤ dirty.card := by
  refine (installTrans_ends hlog hdirty (fun t => hS _ (standsFor_install_take hlog t)) h).bind
    fun _ m₁ h₁ => ?_
  apply ends_modify_bind
  obtain ⟨view, hc⟩ := h₁.cached
  have hclean : dirty \ ((L.blocks base).take (L.blocks base).length).toFinset = ∅ := by
    rw [List.take_length, Finset.sdiff_eq_empty_iff_subset]
    cases hdirty with
    | inl hempty => simp [hempty]
    | inr hblocks => exact hblocks.subset
  rw [hclean] at hc
  have hc' : Cached { m₁ with lh := [] } view ∅ ∅ :=
    ⟨hc.order, hc.unique, hc.buf, hc.cached, hc.rest⟩
  refine (writeHead_ends hc' (Finset.notMem_empty L.start)).mono (fun _ m₂ hm => ?_)
    fun _ m₂ hstop => absurd hstop.2 not_full_empty
  obtain ⟨hw, view', hc₂⟩ := hm
  have hblocks : L.blocks m₂.disk = [] := by
    rw [Log.blocks, hw.disk, update_self]
    exact headerBlocks_encodeHeader [] _ (by decide)
  have hdisk : Set.EqOn m₂.disk (L.format.replay base) L.areaᶜ := by
    intro b hb
    have hstart : b ≠ L.start := fun heq => hb (heq ▸ L.start_mem)
    have hall := h₁.disk
    rw [← Log.length_entries, List.take_length] at hall
    rw [hw.disk, update_of_ne hstart]
    exact congrFun hall b
  refine ⟨hc₂.view_eq ▸ hc₂, hw.lh, hw.outstanding.trans h₁.outstanding, hblocks, hdisk, ?_⟩
  exact hw.crash h₁.crash (hS _ (standsFor_of_empty hblocks hdisk))

end Install

section Recovery

variable {L : Log} {d : Disk}

theorem cached_boot (d : Disk) : Cached (boot d) d ∅ ∅ where
  order i := List.mem_reverse.mpr (List.mem_finRange i)
  unique i j b hi := absurd hi (Option.some_ne_none b).symm
  buf i := ⟨by simp [boot], by simp [boot], fun b hi => absurd hi (Option.some_ne_none b).symm⟩
  cached b hb := absurd hb (Finset.notMem_empty b)
  rest b _ _ := rfl

theorem recoverFromLog_returns (hlog : Loggable L (L.blocks d)) :
    Returns (recoverFromLog L) (boot d) fun _ =>
      Erased L (L.format.replay d) (StandsFor L (L.format.replay d)) := by
  refine Ends.returns (E := fun _ _ => False) ?_ fun _ _ => id
  refine (readHead_ends (cached_boot d) hlog).bind fun _ m ⟨hc, hdisk, hlh, hout, hcrash⟩ => ?_
  have hinstalled : Installed L d ∅ (StandsFor L (L.format.replay d)) 0 m := by
    refine ⟨⟨d, by simpa using hc⟩, ?_, hlh, hout, fun d' hd' => ?_⟩
    · rw [List.take_zero, install_nil]
      exact hdisk
    · rw [hcrash, boot, List.mem_singleton] at hd'
      rw [hd']
      exact ⟨hlog, Set.eqOn_refl _ _⟩
  exact (install_erase_ends hlog (Or.inl rfl) (fun _ hd => hd) hinstalled).mono
    (fun _ _ hm => hm) fun _ _ hstop => not_full_empty hstop.2

def crashes {α : Type} (x : FsM α) (m : Machine) : List Disk :=
  match x.run { m with crashDisks := [m.disk] } with
  | .ok _ m' => m'.crashDisks
  | .error _ m' => m'.crashDisks

theorem mem_crashes {α : Type} {x : FsM α} {m : Machine} {S : Disk → Prop}
    (h : Ends x { m with crashDisks := [m.disk] } (fun _ m' => ∀ d ∈ m'.crashDisks, S d)
      fun _ m' => ∀ d ∈ m'.crashDisks, S d) : ∀ d ∈ crashes x m, S d := by
  rw [Ends] at h
  rw [crashes]
  cases hrun : x.run { m with crashDisks := [m.disk] } with
  | ok a m' =>
    rw [hrun] at h
    exact h
  | error e m' =>
    rw [hrun] at h
    exact h

def Interrupted (L : Log) (d d' : Disk) : Prop := d' ∈ crashes (recoverFromLog L) (boot d)

def Recovers (L : Log) (d c : Disk) : Prop :=
  ∀ d', Relation.ReflTransGen (Interrupted L) d d' →
    Returns (recoverFromLog L) (boot d') fun _ m => Set.EqOn m.disk c L.areaᶜ

theorem StandsFor.interrupted {c d' : Disk} (h : StandsFor L c d) (hd : Interrupted L d d') :
    StandsFor L c d' := by
  have hcrash := mem_crashes (m := boot d)
    ((recoverFromLog_returns h.1).mono fun _ m hm => hm.crash).ends d' hd
  exact ⟨hcrash.1, hcrash.2.trans h.2⟩

theorem StandsFor.recovers {c : Disk} (h : StandsFor L c d) : Recovers L d c := by
  intro d' hd
  have hd' : StandsFor L c d' := by
    induction hd with
    | refl => exact h
    | tail _ hstep ih => exact ih.interrupted hstep
  exact (recoverFromLog_returns hd'.1).mono fun _ m hm => hm.disk.trans hd'.2

end Recovery

structure Open (L : Log) (old c : Disk) (m : Machine) : Prop where
  cached : Cached m c m.lh.toFinset ∅
  loggable : Loggable L m.lh
  disk : m.disk = old
  crash : m.crashDisks = [old]

structure Logged (L : Log) (old c : Disk) (bs : List Word) (t : ℕ) (m : Machine) : Prop where
  cached : ∃ view, Cached m view bs.toFinset ∅ ∧ Set.EqOn view c L.areaᶜ
  home : Set.EqOn m.disk old L.areaᶜ
  blocks : L.blocks m.disk = []
  slots : ∀ i (hi : i < bs.length), i < t → m.disk (L.slot i) = c bs[i]
  lh : m.lh = bs
  outstanding : m.outstanding = 0
  crash : ∀ d ∈ m.crashDisks, StandsFor L old d

section Commit

variable {L : Log} {old c : Disk} {bs : List Word} {m : Machine}

theorem writeLogBlock_ends (hlog : Loggable L bs) (ht : t < bs.length) (h : Logged L old c bs t m) :
    Ends (writeLogBlock L t ()) m (fun _ => Logged L old c bs (t + 1))
      fun _ m' => (∀ d ∈ m'.crashDisks, StandsFor L old d) ∧ NBUF ≤ bs.toFinset.card := by
  obtain ⟨view, hc, hview⟩ := h.cached
  have hslot : t + 1 < L.size := (Nat.succ_le_of_lt ht).trans_lt hlog.fits
  obtain ⟨hout, hb⟩ := hlog.home _ (List.getElem_mem ht)
  have hne : L.slot t ≠ bs[t] := fun heq => hout (heq ▸ Log.slot_mem hslot)
  have hclean : L.slot t ∉ bs.toFinset := by simpa using hlog.notMem (Log.slot_mem hslot)
  apply ends_get_bind
  rw [h.lh, List.getD_eq_getElem _ _ ht]
  refine hc.bread_two hne (Log.lt_fssize (Log.slot_mem hslot)) hb (Or.inl (by simp))
    (fun i j m₁ hg => ?_) fun e m' hcrash hcard => ⟨hcrash ▸ h.crash, hcard⟩
  refine ((hg.cached.copy (Finset.pair_comm i j) hg.second hg.first hne.symm fun hm => ?_).mono
    fun _ m₂ ⟨hw, hc₂⟩ => ?_).ends
  · exact absurd (List.mem_toFinset.mpr (List.getElem_mem ht)) hm
  · rw [Finset.sdiff_singleton_eq_erase, Finset.erase_eq_of_notMem hclean] at hc₂
    have hdisk : m₂.disk = update m.disk (L.slot t) (c bs[t]) := by
      rw [hw.disk, hg.disk, hview hout]
    -- the write is inside the log and spares the header
    have hoff (b : Word) (hb : b ∉ L.area) : b ≠ L.slot t :=
      fun heq => hb (heq ▸ Log.slot_mem hslot)
    have hhome : Set.EqOn m₂.disk old L.areaᶜ := by
      intro b hb
      rw [hdisk, update_of_ne (hoff b hb)]
      exact h.home hb
    have hblocks : L.blocks m₂.disk = [] := by
      rw [Log.blocks, hdisk, update_of_ne (Log.slot_ne_start hslot).symm]
      exact h.blocks
    refine ⟨⟨_, hc₂, fun b hb => ?_⟩, hhome, hblocks, fun i hi hit => ?_,
      hw.lh.trans (hg.lh.trans h.lh), hw.outstanding.trans (hg.outstanding.trans h.outstanding),
      hw.crash (hg.crashDisks ▸ h.crash) (standsFor_of_empty hblocks hhome)⟩
    · rw [update_of_ne (hoff b hb)]
      exact hview hb
    · rw [hdisk]
      by_cases hcur : i = t
      · subst hcur
        exact update_self _ _ _
      · have hi' : i + 1 < L.size := (Nat.succ_le_of_lt hi).trans_lt hlog.fits
        rw [update_of_ne (Log.slot_ne_slot hi' hslot hcur)]
        exact h.slots i hi (by omega)

theorem writeLog_ends (hlog : Loggable L bs) (h : Logged L old c bs 0 m) :
    Ends (writeLog L) m (fun _ => Logged L old c bs bs.length)
      fun _ m' => (∀ d ∈ m'.crashDisks, StandsFor L old d) ∧ NBUF ≤ bs.toFinset.card := by
  apply ends_get_bind
  have hloop := forLoop_ends (fun t _ => Logged L old c bs t) (n := m.lh.length) (b := ()) h
    fun t _ m' _ ht h' => writeLogBlock_ends hlog (by rwa [h.lh, Nat.zero_add] at ht) h'
  rw [Nat.zero_add] at hloop
  rw [h.lh] at hloop ⊢
  exact hloop

theorem Logged.standsFor (h : Logged L old c bs bs.length m) (hlog : Loggable L bs)
    {page : DiskBlock} (hrest : ∀ b ∉ bs, old b = c b) :
    StandsFor L c (update m.disk L.start (encodeHeader bs page)) := by
  have hbs : headerBlocks (encodeHeader bs page) = bs :=
    headerBlocks_encodeHeader bs page (hlog.bound.trans_lt (by decide))
  constructor
  · rw [Log.blocks, update_self, hbs]
    exact hlog
  · intro b hb
    refine L.format.replay_commit m.disk ?_ (fun heq => hb (heq ▸ L.start_mem)) ?_
    · change ∀ i (hi : i < (headerBlocks (encodeHeader bs page)).length),
        L.slot i ≠ L.start ∧ m.disk (L.slot i) = c ((headerBlocks (encodeHeader bs page))[i])
      rw [hbs]
      intro i hi
      exact ⟨Log.slot_ne_start ((Nat.succ_le_of_lt hi).trans_lt hlog.fits), h.slots i hi hi⟩
    · intro hm
      rw [h.home hb]
      exact hrest b fun hm' => hm (by rwa [← hbs] at hm')

def Either (L : Log) (old c d : Disk) : Prop := StandsFor L old d ∨ StandsFor L c d

theorem Open.rest (h : Open L old c m) : ∀ b ∉ m.lh, old b = c b := by
  intro b hb
  rw [← h.disk]
  exact (h.cached.rest b (by simpa using hb) (by simp)).symm

theorem Open.logged (h : Open L old c m) (hout : m.outstanding = 0) (hold : L.blocks old = []) :
    Logged L old c m.lh 0 m where
  cached := ⟨c, h.cached, Set.eqOn_refl _ _⟩
  home b _ := congrFun h.disk b
  blocks := by rw [h.disk, hold]
  slots i _ hi := absurd hi (Nat.not_lt_zero i)
  lh := rfl
  outstanding := hout
  crash d hd := by
    rw [h.crash, List.mem_singleton] at hd
    rw [hd]
    exact standsFor_of_empty hold (Set.eqOn_refl _ _)

theorem Logged.installed (h : Logged L old c bs bs.length m) (hlog : Loggable L bs)
    (hrest : ∀ b ∉ bs, old b = c b) {page : DiskBlock} {m' : Machine}
    (hw : Wrote m L.start (encodeHeader bs page) m')
    (hcached : ∃ view, Cached m' view bs.toFinset ∅) :
    L.blocks m'.disk = bs ∧ Installed L m'.disk bs.toFinset (Either L old c) 0 m' := by
  have hafter : StandsFor L c m'.disk := hw.disk ▸ h.standsFor hlog hrest
  have hblocks : L.blocks m'.disk = bs := by
    rw [Log.blocks, hw.disk, update_self]
    exact headerBlocks_encodeHeader _ _ (hlog.bound.trans_lt (by decide))
  refine ⟨hblocks, by simpa using hcached, ?_, ?_, hw.outstanding.trans h.outstanding, ?_⟩
  · rw [List.take_zero, install_nil]
  · rw [hw.lh, h.lh, hblocks]
  · exact hw.crash (fun d hd => Or.inl (h.crash d hd)) (Or.inr hafter)

theorem commit_ends (h : Open L old c m) (hout : m.outstanding = 0) (hold : L.blocks old = []) :
    Ends (commit L) m (fun _ => Erased L c (Either L old c))
      fun _ m' => (∀ d ∈ m'.crashDisks, Either L old c d) ∧ NBUF ≤ m.lh.toFinset.card := by
  have hlogged := h.logged hout hold
  apply ends_get_bind
  by_cases hlh : m.lh.length > 0
  · rw [if_pos hlh]
    refine (writeLog_ends h.loggable hlogged).bind_imp
      (fun _ m' hstop => ⟨fun d hd => Or.inl (hstop.1 d hd), hstop.2⟩) fun _ m₁ h₁ => ?_
    obtain ⟨view, hc₁, -⟩ := h₁.cached
    have hstart : L.start ∉ m.lh.toFinset := by simpa using h.loggable.notMem L.start_mem
    refine (writeHead_ends hc₁ hstart).bind_imp (fun _ m' hstop =>
      ⟨fun d hd => Or.inl (h₁.crash d (hstop.1 ▸ hd)), hstop.2⟩) fun _ m₂ ⟨hw, hcached⟩ => ?_
    rw [h₁.lh] at hw
    have hafter : StandsFor L c m₂.disk := hw.disk ▸ h₁.standsFor h.loggable h.rest
    obtain ⟨hblocks, hinstalled⟩ := h₁.installed h.loggable h.rest hw hcached
    refine (install_erase_ends hafter.1 (Or.inr (by rw [hblocks])) ?_ hinstalled).mono ?_
      fun _ _ hstop => hstop
    · exact fun d hd => Or.inr ⟨hd.1, hd.2.trans hafter.2⟩
    · exact fun _ m' hm => ⟨hm.cached, hm.lh, hm.outstanding, hm.blocks, hm.disk.trans hafter.2,
        hm.crash⟩
  · -- nothing was logged, so nothing is dirty and the contents are those on disk
    rw [if_neg hlh]
    have hnil : m.lh = [] := List.length_eq_zero_iff.mp (by omega)
    have hc := h.cached
    rw [hnil, List.toFinset_nil] at hc
    refine ends_pure ⟨hc.view_eq ▸ hc, hnil, hout, hlogged.blocks, ?_, ?_⟩
    · exact fun b _ => congrFun hc.view_eq.symm b
    · exact fun d hd => Or.inl (hlogged.crash d hd)

end Commit

namespace Op

def apply : Op → Disk → Disk
  | read _, c => c
  | write b f, c => Function.update c b (f (c b))

def Outside (L : Log) : Op → Prop
  | read _ => True
  | write b _ => b ∉ L.area

end Op

def applyAll (ops : List Op) (c : Disk) : Disk := ops.foldl (fun c op => op.apply c) c

structure Idle (L : Log) (m : Machine) : Prop where
  cached : Cached m m.disk ∅ ∅
  lh : m.lh = []
  outstanding : m.outstanding = 0
  blocks : L.blocks m.disk = []

section Transaction

variable {L : Log} {old c : Disk} {m : Machine}

theorem Cached.pin {dirty : Finset Word} {i : Fin NBUF} {held : Finset (Fin NBUF)}
    (h : Cached m view dirty held) (hi : (m.bufs i).blockno = some b) (lh : List Word) :
    Cached
      { m with
        lh := lh
        bufs := update m.bufs i { m.bufs i with dirty := true } }
      view (insert b dirty) held := by
  refine h.change_kept rfl h.order rfl ⟨(h.buf i).busy, ?_, (h.buf i).data⟩ ?_ ?_ ?_
  · exact iff_of_true rfl ⟨b, Finset.mem_insert_self b dirty, hi⟩
  · refine fun j hj => ⟨Iff.rfl, fun a ha => ⟨rfl, ?_⟩⟩
    have hab : a ≠ b := by
      rintro rfl
      exact hj (h.unique j i a ha hi)
    simp [hab]
  · intro a ha
    rw [Finset.mem_insert] at ha
    cases ha with
    | inl hab => exact Or.inr (hab ▸ hi)
    | inr hd => exact Or.inl hd
  · exact fun a ha hfree => h.rest a (fun hd => ha (Finset.mem_insert_of_mem hd)) hfree

theorem Loggable.concat {bs : List Word} (h : Loggable L bs) (hnew : b ∉ bs)
    (hb : b ∉ L.area ∧ b.toNat < FSSIZE) (hbound : bs.length < LOGSIZE)
    (hfits : bs.length < L.size - 1) : Loggable L (bs ++ [b])  where
  nodup := by
    refine List.nodup_append.mpr ⟨h.nodup, List.nodup_singleton b, ?_⟩
    intro a ha a' ha'
    rw [List.mem_singleton.mp ha']
    exact fun hab => hnew (hab ▸ ha)
  fits := by
    rw [List.length_append, List.length_singleton]
    omega
  bound := by
    rw [List.length_append, List.length_singleton]
    exact hbound
  home := by
    intro a ha
    rw [List.mem_append, List.mem_singleton] at ha
    cases ha with
    | inl hold => exact h.home a hold
    | inr hab => exact hab ▸ hb

theorem logWrite_ends {i : Fin NBUF} {held : Finset (Fin NBUF)}
    (h : Cached m view m.lh.toFinset held) (hi : (m.bufs i).blockno = some b)
    (hlog : Loggable L m.lh) (hb : b ∉ L.area) :
    Ends (logWrite L i) m
      (fun _ m' => Cached m' view m'.lh.toFinset held ∧ Loggable L m'.lh ∧ b ∈ m'.lh ∧
        m'.disk = m.disk ∧ m'.outstanding = m.outstanding ∧ m'.crashDisks = m.crashDisks ∧
        (m'.bufs i).blockno = some b)
      fun _ m' => m'.crashDisks = m.crashDisks := by
  apply ends_get_bind
  by_cases hsize : m.lh.length ≥ LOGSIZE ∨ m.lh.length ≥ L.size - 1
  · rw [if_pos hsize]
    exact ends_throw rfl
  rw [if_neg hsize]
  rw [not_or, Nat.not_le, Nat.not_le] at hsize
  by_cases hout : m.outstanding < 1
  · rw [if_pos hout]
    exact ends_throw rfl
  rw [if_neg hout, hi, Option.getD_some]
  have hpin := h.pin hi (if b ∈ m.lh then m.lh else m.lh ++ [b])
  have hself : (update m.bufs i { m.bufs i with dirty := true } i).blockno = some b := by
    rw [update_self]
    exact hi
  by_cases hmem : b ∈ m.lh
  · simp only [if_pos hmem] at hpin ⊢
    rw [Finset.insert_eq_of_mem (List.mem_toFinset.mpr hmem)] at hpin
    exact ends_of_ok rfl ⟨hpin, hlog, hmem, rfl, rfl, rfl, hself⟩
  · simp only [if_neg hmem] at hpin ⊢
    have hfin : insert b m.lh.toFinset = (m.lh ++ [b]).toFinset := by
      ext a
      simp
    rw [hfin] at hpin
    have hlog' := hlog.concat hmem ⟨hb, ((h.buf i).data b hi).2.2⟩ hsize.1 hsize.2
    exact ends_of_ok rfl ⟨hpin, hlog', by simp, rfl, rfl, rfl, hself⟩

structure Going (L : Log) (old c : Disk) (m : Machine) : Prop extends Open L old c m where
  outstanding : m.outstanding = 1

theorem read_ends (b : Word) (h : Going L old c m) :
    Ends (runOp L (.read b)) m (fun _ => Going L old c) fun _ m' => m'.crashDisks = [old] := by
  refine (h.cached.bread (by simp)).bind_imp (fun _ m' hstop => hstop.1.trans h.crash)
    fun i m₁ hi => ?_
  have hdisk : b ∉ m.lh.toFinset → c b = m₁.disk b := by
    intro hb
    rw [hi.disk]
    exact h.cached.rest b hb (by simp)
  refine ((hi.cached.brelse (Finset.mem_insert_self i ∅) hi.blockno hdisk).mono
    fun _ m₂ ⟨hs, hc, _⟩ => ?_).ends
  rw [insert_empty_eq, Finset.sdiff_self] at hc
  have hsame := hi.toSameDisk.trans hs
  exact ⟨⟨hsame.lh ▸ hc, hsame.lh ▸ h.loggable, hsame.disk.trans h.disk,
    hsame.crashDisks.trans h.crash⟩, hsame.outstanding.trans h.outstanding⟩

theorem write_ends (f : DiskBlock → DiskBlock) (hb : b ∉ L.area) (h : Going L old c m) :
    Ends (runOp L (.write b f)) m (fun _ => Going L old (update c b (f (c b))))
      fun _ m' => m'.crashDisks = [old] := by
  refine (h.cached.bread (by simp)).bind_imp (fun _ m' hstop => hstop.1.trans h.crash)
    fun i m₁ hi => ?_
  apply ends_get_bind
  have hheld : i ∈ insert i (∅ : Finset (Fin NBUF)) := Finset.mem_insert_self i ∅
  rw [((hi.cached.buf i).data b hi.blockno).2.1]
  refine (hi.cached.setData hheld hi.blockno (f (c b))).ends.bind fun _ m₂ ⟨hs, hc, hn⟩ => ?_
  have hsame := hi.toSameDisk.trans hs
  rw [← hsame.lh] at hc
  refine (logWrite_ends hc ((hn i).trans hi.blockno) (hsame.lh ▸ h.loggable) hb).bind_imp
    (fun _ m' hstop => hstop.trans (hsame.crashDisks.trans h.crash)) fun _ m₃ hm => ?_
  obtain ⟨hc₃, hlog, hmem, hdisk, hout, hcrash, hi₃⟩ := hm
  refine ((hc₃.brelse hheld hi₃ fun hclean => ?_).mono fun _ m₄ ⟨hs₄, hc₄, _⟩ => ?_).ends
  · exact absurd (List.mem_toFinset.mpr hmem) hclean
  · rw [insert_empty_eq, Finset.sdiff_self, ← hs₄.lh] at hc₄
    refine ⟨⟨hc₄, hs₄.lh ▸ hlog, ?_, ?_⟩, ?_⟩
    · rw [hs₄.disk, hdisk, hsame.disk, h.disk]
    · rw [hs₄.crashDisks, hcrash, hsame.crashDisks, h.crash]
    · rw [hs₄.outstanding, hout, hsame.outstanding, h.outstanding]

theorem runOp_ends (op : Op) (hop : op.Outside L) (h : Going L old c m) :
    Ends (runOp L op) m (fun _ => Going L old (op.apply c)) fun _ m' => m'.crashDisks = [old] := by
  cases op with
  | read b => exact read_ends b h
  | write b f => exact write_ends f hop h

theorem runOps_ends (ops : List Op) (hops : ∀ op ∈ ops, op.Outside L) (h : Going L old c m) :
    Ends (runOps L ops) m (fun _ => Going L old (applyAll ops c))
      fun _ m' => m'.crashDisks = [old] := by
  induction ops generalizing c m with
  | nil => exact ends_pure h
  | cons op ops ih =>
    refine (runOp_ends op (hops op List.mem_cons_self) h).bind fun _ m' h' => ?_
    exact ih (fun op' hop' => hops op' (List.mem_cons_of_mem _ hop')) h'

theorem transaction_ends (hm : Idle L m) (ops : List Op) (hops : ∀ op ∈ ops, op.Outside L) :
    Ends (transaction L ops) { m with crashDisks := [m.disk] }
      (fun _ => Erased L (applyAll ops m.disk) (Either L m.disk (applyAll ops m.disk)))
      fun _ m' => ∀ d ∈ m'.crashDisks, Either L m.disk (applyAll ops m.disk) d := by
  have hbefore (d : Disk) (hd : d ∈ [m.disk]) : Either L m.disk (applyAll ops m.disk) d := by
    rw [List.mem_singleton.mp hd]
    exact Or.inl (standsFor_of_empty hm.blocks (Set.eqOn_refl _ _))
  have hbegin : (beginOp).run { m with crashDisks := [m.disk] } =
      .ok () { m with crashDisks := [m.disk], outstanding := 1 } := by
    rw [beginOp, get_bind, if_neg (by rw [hm.lh, hm.outstanding]; decide)]
    simp [hm.outstanding]
  have hgoing : Going L m.disk m.disk { m with crashDisks := [m.disk], outstanding := 1 } := by
    have hc := hm.cached
    refine ⟨⟨?_, ?_, rfl, rfl⟩, rfl⟩
    · simp only [hm.lh, List.toFinset_nil]
      exact ⟨hc.order, hc.unique, hc.buf, hc.cached, hc.rest⟩
    · rw [hm.lh]
      exact loggable_nil L
  rw [Ends, transaction, bind_ok hbegin]
  refine (runOps_ends ops hops hgoing).bind_imp
    (fun _ m' hstop d hd => hbefore d (hstop ▸ hd)) fun _ m₁ h₁ => ?_
  refine ends_modify_bind (ends_get_bind ?_)
  rw [if_pos (by simp [h₁.outstanding])]
  have hc := h₁.cached
  have hopen : Open L m.disk (applyAll ops m.disk) { m₁ with outstanding := m₁.outstanding - 1 } :=
    ⟨⟨hc.order, hc.unique, hc.buf, hc.cached, hc.rest⟩, h₁.loggable, h₁.disk, h₁.crash⟩
  exact (commit_ends hopen (by simp [h₁.outstanding]) hm.blocks).mono (fun _ _ h => h)
    fun _ _ hstop => hstop.1

theorem transaction_atomic (L : Log) (m : Machine) (hm : Idle L m) (ops : List Op)
    (hops : ∀ op ∈ ops, op.Outside L) :
    ∀ d ∈ crashes (transaction L ops) m,
      Recovers L d m.disk ∨ Recovers L d (applyAll ops m.disk) := by
  intro d hd
  have heither : Either L m.disk (applyAll ops m.disk) d :=
    mem_crashes ((transaction_ends hm ops hops).mono (fun _ _ h => h.crash) fun _ _ h => h) d hd
  exact heither.imp StandsFor.recovers StandsFor.recovers

def mkfsLog : Log := ⟨2, 30, by decide, by decide⟩

theorem transaction_atomic_write :
    Idle mkfsLog (boot fun _ _ => 0) ∧ Op.Outside mkfsLog (.write 70 fun _ _ => 1) ∧
    (crashes (transaction mkfsLog [.write 70 fun _ _ => 1]) (boot fun _ _ => 0)).length = 5 ∧
    ∀ d ∈ crashes (transaction mkfsLog [.write 70 fun _ _ => 1]) (boot fun _ _ => 0),
      Recovers mkfsLog d (fun _ _ => 0) ∨
      Recovers mkfsLog d (Function.update (fun _ _ => 0) 70 fun _ => 1) := by
  have hidle : Idle mkfsLog (boot fun _ _ => 0) := by
    refine ⟨cached_boot _, rfl, rfl, ?_⟩
    change headerBlocks (fun _ => 0) = []
    rw [headerBlocks, headerCount, loadWord_zero]
    rfl
  have hout : Op.Outside mkfsLog (.write 70 fun _ _ => 1) := by
    rintro ⟨-, hlt⟩
    exact absurd hlt (by decide)
  refine ⟨hidle, hout, by decide +kernel, ?_⟩
  exact transaction_atomic mkfsLog _ hidle [.write 70 fun _ _ => 1] fun op hop => by
    rw [List.mem_singleton.mp hop]
    exact hout

end Transaction

end Xv6Prng.Fs
