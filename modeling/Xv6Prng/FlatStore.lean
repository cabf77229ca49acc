import Xv6Prng.SharedBuffers

/-!
# The buffer cache as a flat store

The purpose of the cache is a store of blocks: a read returns what was last written. Every run
of the shared cache has such a trace, because a block has at most one buffer, only the process
that holds a buffer changes it, and a buffer is given to another block only when the disk has
what it holds.

`bget` panics when every buffer is busy or pinned. That cannot happen as long as the blocks that
are logged and the buffers that are held are fewer than the buffers.
-/

namespace Xv6Prng.Fs.Shared

open Runs LinkedRing Function

def contents (disk : Store) (trace : List Event) : Store :=
  trace.foldl (fun m e => match e with
    | .read _ _ => m
    | .write k data => Function.update m k data) disk

def ReadsBack (disk : Store) (trace : List Event) : Prop :=
  ∀ pre k data post, trace = pre ++ .read k data :: post → data = contents disk pre k

theorem contents_read (disk : Store) (trace : List Event) (k : Key) (data : DiskBlock) :
    contents disk (trace ++ [.read k data]) = contents disk trace := by
  simp [contents]

theorem contents_write (disk : Store) (trace : List Event) (k : Key) (data : DiskBlock) :
    contents disk (trace ++ [.write k data]) =
      update (contents disk trace) k data := by
  simp [contents]

theorem readsBack_append {disk : Store} {trace : List Event} {e : Event}
    (h : ReadsBack disk trace) (he : ∀ k data, e = .read k data → data = contents disk trace k) :
    ReadsBack disk (trace ++ [e]) := by
  intro pre k data post heq
  rcases List.append_eq_append_iff.mp heq with ⟨as, hpre, has⟩ | ⟨as, hpre, has⟩
  · cases as with
    | nil =>
      rw [List.append_nil] at hpre
      rw [hpre]
      exact he k data (List.cons.inj has).1
    | cons a as =>
      obtain ⟨-, hrest⟩ := List.cons.inj has
      exact absurd hrest (by simp)
  · cases as with
    | nil =>
      rw [List.append_nil] at hpre
      rw [← hpre]
      exact he k data (List.cons.inj has).1.symm
    | cons a as =>
      obtain ⟨rfl, -⟩ := List.cons.inj has
      exact h pre k data as hpre

theorem map_update {α β γ : Type*} [DecidableEq α] (f : β → γ) {g : α → β} {a : α} {b : β}
    (h : f b = f (g a)) (x : α) : f (update g a b x) = f (g x) := by
  rw [update_apply]
  split_ifs with hx
  · rw [hx, h]
  · rfl

def IsDev (dev : Word) : Prop := dev.toNat < 2

instance (dev : Word) : Decidable (IsDev dev) := inferInstanceAs (Decidable (_ < _))

structure Contents {n : ℕ} (disk₀ : Store) (s : System n) : Prop where
  unique : ∀ i j, IsDev (s.bufs i).dev → (s.bufs i).key = (s.bufs j).key → i = j
  used : ∀ i, IsDev (s.bufs i).dev ∨
    (s.bufs i).busy = false ∧ (s.bufs i).valid = false ∧ (s.bufs i).dirty = false
  asked : ∀ p k, (s.procs p).pc.asks = some k → IsDev k.1
  data : ∀ i, (s.bufs i).valid = true → (∀ p, i ∉ (s.procs p).modified) →
    (s.bufs i).data = contents disk₀ s.trace (s.bufs i).key
  disk : ∀ k, (∀ i, (s.bufs i).key = k → (s.bufs i).dirty = false) →
    s.disk k = contents disk₀ s.trace k
  reads : ReadsBack disk₀ s.trace

section Contents

variable {n : ℕ} {disk₀ : Store} {s s' : System n} {p : Fin n} {i : Fin NBUF}

structure SameContents (s s' : System n) : Prop where
  bufs : ∀ i, s'.bufs i = { s.bufs i with busy := (s'.bufs i).busy }
  used : ∀ i, (s'.bufs i).busy = true → (s.bufs i).busy = true ∨ IsDev (s.bufs i).dev
  modified : ∀ p, (s'.procs p).modified = (s.procs p).modified
  asked : ∀ p k, (s'.procs p).pc.asks = some k → (s.procs p).pc.asks = some k ∨ IsDev k.1
  disk : s'.disk = s.disk
  trace : s'.trace = s.trace

section Contents

variable (h : Contents disk₀ s)
include h

theorem Contents.same (hs : SameContents s s') : Contents disk₀ s' := by
  have hkey (j : Fin NBUF) : (s'.bufs j).key = (s.bufs j).key := by rw [hs.bufs j]; rfl
  have hdev (j : Fin NBUF) : (s'.bufs j).dev = (s.bufs j).dev := by rw [hs.bufs j]
  have hvalid (j : Fin NBUF) : (s'.bufs j).valid = (s.bufs j).valid := by rw [hs.bufs j]
  have hdirty (j : Fin NBUF) : (s'.bufs j).dirty = (s.bufs j).dirty := by rw [hs.bufs j]
  have hdata (j : Fin NBUF) : (s'.bufs j).data = (s.bufs j).data := by rw [hs.bufs j]
  refine ⟨fun j k => ?_, fun j => ?_, fun q k hk => ?_, fun j => ?_, fun k => ?_, ?_⟩
  · rw [hdev, hkey, hkey]
    exact h.unique j k
  · rw [hdev, hvalid, hdirty]
    rcases h.used j with hd | ⟨hb, hv, hdj⟩
    · exact Or.inl hd
    · by_cases hbusy : (s'.bufs j).busy = true
      · rcases hs.used j hbusy with hb' | hd
        · rw [hb] at hb'
          cases hb'
        · exact Or.inl hd
      · exact Or.inr ⟨by simpa using hbusy, hv, hdj⟩
  · exact (hs.asked q k hk).elim (h.asked q k) id
  · rw [hvalid, hdata, hkey, hs.trace]
    simp only [hs.modified]
    exact h.data j
  · simp only [hkey, hdirty]
    rw [hs.disk, hs.trace]
    exact h.disk k
  · rw [hs.trace]
    exact h.reads

theorem Contents.stop (msg : String) : Contents disk₀ (s.stop msg) :=
  { h with }

theorem Contents.idestart : Contents disk₀ s.idestart := by
  rw [System.idestart]
  split
  · exact h
  · split_ifs
    · exact h.stop _
    · exact h

theorem Contents.wakeup : Contents disk₀ (s.wakeup i) :=
  h.same ⟨fun _ => rfl, fun _ hb => Or.inl hb, fun _ => wake_modified _,
    fun _ _ hk => Or.inl ((wake_asks _).symm.trans hk), rfl, rfl⟩

theorem Contents.goto {pc : Pc}
    (hpc : ∀ k, pc.asks = some k → (s.procs p).pc.asks = some k ∨ IsDev k.1) :
    Contents disk₀ (s.goto p pc) := by
  refine h.same ⟨fun _ => rfl, fun _ hb => Or.inl hb, fun q => ?_, fun q k hk => ?_, rfl, rfl⟩
  · exact map_update Proc.modified (by rfl) q
  · simp only [System.goto, System.setProc, update_apply] at hk
    split_ifs at hk with hq
    · rw [hq]
      exact hpc k hk
    · exact Or.inl hk

theorem Contents.recycle {k : Key} (hk : IsDev k.1)
    (hnew : ∀ j, (s.bufs j).key ≠ k) (hclean : (s.bufs i).dirty = false) :
    Contents disk₀ (s.hand p i ⟨k.1, k.2, true, false, false, (s.bufs i).data⟩) := by
  have hbufs (j : Fin NBUF) : ((s.hand p i ⟨k.1, k.2, true, false, false, (s.bufs i).data⟩).bufs j) =
      if j = i then ⟨k.1, k.2, true, false, false, (s.bufs i).data⟩ else s.bufs j :=
    update_apply ..
  have hmodified (q : Fin n) : ((s.hand p i
      ⟨k.1, k.2, true, false, false, (s.bufs i).data⟩).procs q).modified =
      (s.procs q).modified := map_update Proc.modified (by rfl) q
  refine ⟨fun j l hj hkey => ?_, fun j => ?_, fun q l hl => ?_, fun j => ?_, fun l hl => ?_, h.reads⟩
  · rw [hbufs] at hj hkey
    rw [hbufs] at hkey
    split_ifs at hj hkey with hji hli hli
    · rw [hji, hli]
    · exact absurd hkey.symm (hnew l)
    · exact absurd hkey (hnew j)
    · exact h.unique j l hj hkey
  · rw [hbufs]
    split_ifs
    · exact Or.inl hk
    · exact h.used j
  · simp only [System.hand, System.setProc, System.setBuf, update_apply] at hl
    split_ifs at hl
    · cases hl
    · exact h.asked q l hl
  · simp only [hmodified]
    rw [hbufs]
    split_ifs
    · exact fun hvalid => hvalid.elim
    · exact h.data j
  · refine h.disk l fun j hj => ?_
    by_cases hji : j = i
    · rw [hji]
      exact hclean
    · have hold := hl j
      rw [hbufs, if_neg hji] at hold
      exact hold hj

theorem Contents.find (hdev : IsDev (s.bufs i).dev) :
    Contents disk₀ (s.hand p i { s.bufs i with busy := true }) := by
  refine h.same ⟨fun j => ?_, fun j hj => ?_, fun q => ?_, fun q k hk => ?_, rfl, rfl⟩
  · simp only [System.hand, System.setBuf, System.setProc, update_apply]
    split_ifs with hji
    · rw [hji]
    · rfl
  · simp only [System.hand, System.setBuf, System.setProc, update_apply] at hj
    split_ifs at hj with hji
    · exact Or.inr (hji ▸ hdev)
    · exact Or.inl hj
  · exact map_update Proc.modified (by rfl) q
  · simp only [System.hand, System.setBuf, System.setProc, update_apply] at hk
    split_ifs at hk
    · cases hk
    · exact Or.inl hk

theorem Contents.dev_of_busy (hbusy : (s.bufs i).busy = true) : IsDev (s.bufs i).dev := by
  rcases h.used i with hd | ⟨hb, -⟩
  · exact hd
  · rw [hb] at hbusy
    cases hbusy

theorem Contents.dev_of_dirty (hdirty : (s.bufs i).dirty = true) : IsDev (s.bufs i).dev := by
  rcases h.used i with hdev | ⟨-, -, hclean⟩
  · exact hdev
  · rw [hdirty] at hclean
    cases hclean

theorem Contents.modify (data : DiskBlock) : Contents disk₀ (s.modify p i data) := by
  have hbufs (j : Fin NBUF) : (s.modify p i data).bufs j =
      if j = i then { s.bufs i with data := data } else s.bufs j := update_apply ..
  have hprocs (q : Fin n) : (s.modify p i data).procs q =
      if q = p then { s.procs p with modified := insert i (s.procs p).modified } else s.procs q :=
    update_apply ..
  have hkey (j : Fin NBUF) : ((s.modify p i data).bufs j).key = (s.bufs j).key :=
    map_update Buf.key (by rfl) j
  refine ⟨fun j l hj => ?_, fun j => ?_, fun q k => ?_, fun j hj hm => ?_, fun k hk => ?_, h.reads⟩
  · rw [hkey, hkey]
    have hdev_eq : ((s.modify p i data).bufs j).dev = (s.bufs j).dev := congrArg Prod.fst (hkey j)
    exact h.unique j l (hdev_eq ▸ hj)
  · rw [hbufs]
    split_ifs with hj
    · exact hj ▸ h.used j
    · exact h.used j
  · rw [hprocs]
    split_ifs with hq
    · exact hq ▸ h.asked q k
    · exact h.asked q k
  · -- the changed buffer waits to be written
    have hji : j ≠ i := by
      rintro rfl
      have hp := hm p
      rw [hprocs, if_pos rfl] at hp
      exact hp (Finset.mem_insert_self _ _)
    rw [hbufs, if_neg hji] at hj ⊢
    refine h.data j hj fun q hq => hm q ?_
    rw [hprocs]
    split_ifs with hqp
    · exact Finset.mem_insert_of_mem (hqp ▸ hq)
    · exact hq
  · refine h.disk k fun j hj => ?_
    have hclean := hk j ((hkey j).trans hj)
    rw [hbufs] at hclean
    split_ifs at hclean with hji
    · rw [hji]
      exact hclean
    · exact hclean

theorem Contents.written (hc : Control s) (hs : s.Holds p i)
    (logged : Finset Key) : Contents disk₀ (s.written p i logged) := by
  have hbufs (j : Fin NBUF) : (s.written p i logged).bufs j =
      if j = i then { s.bufs i with dirty := true } else s.bufs j := update_apply ..
  have hprocs (q : Fin n) : (s.written p i logged).procs q =
      if q = p then { s.procs p with modified := (s.procs p).modified.erase i } else s.procs q :=
    update_apply ..
  have hkey (j : Fin NBUF) : ((s.written p i logged).bufs j).key = (s.bufs j).key :=
    map_update Buf.key (by rfl) j
  have hdev := h.dev_of_busy ((hc.busy i).mpr ⟨p, hs.2⟩)
  have htrace : contents disk₀ (s.written p i logged).trace =
      update (contents disk₀ s.trace) (s.bufs i).key (s.bufs i).data :=
    contents_write ..
  refine ⟨fun j l hj => ?_, fun j => ?_, fun q k => ?_, fun j hj hm => ?_, fun k hk => ?_,
    readsBack_append h.reads nofun⟩
  · rw [hkey, hkey]
    have hdev_eq : ((s.written p i logged).bufs j).dev = (s.bufs j).dev := congrArg Prod.fst (hkey j)
    exact h.unique j l (hdev_eq ▸ hj)
  · rw [hbufs]
    split_ifs
    · exact Or.inl hdev
    · exact h.used j
  · rw [hprocs]
    split_ifs with hq
    · exact hq ▸ h.asked q k
    · exact h.asked q k
  · rw [htrace, hkey]
    by_cases hji : j = i
    · rw [hji, update_self, hbufs, if_pos rfl]
    · have hne : (s.bufs j).key ≠ (s.bufs i).key := fun heq => hji (h.unique i j hdev heq.symm).symm
      rw [update_of_ne hne]
      rw [hbufs, if_neg hji] at hj ⊢
      refine h.data j hj fun q hq => hm q ?_
      rw [hprocs]
      split_ifs with hqp
      · exact Finset.mem_erase.mpr ⟨hji, hqp ▸ hq⟩
      · exact hq
  · rw [htrace]
    have hne : k ≠ (s.bufs i).key := by
      rintro rfl
      have hclean := hk i (hkey i)
      rw [hbufs, if_pos rfl] at hclean
      cases hclean
    rw [update_of_ne hne]
    refine h.disk k fun j hj => ?_
    have hji : j ≠ i := by
      rintro rfl
      exact hne hj.symm
    have hclean := hk j ((hkey j).trans hj)
    rwa [hbufs, if_neg hji] at hclean

theorem Contents.iderw {reading : Bool} : Contents disk₀ (s.iderw p i reading) := by
  have hnext : Contents disk₀
      { s.goto p (.iderw i reading) with idequeue := s.idequeue ++ [i] } :=
    { (h.goto nofun : Contents disk₀ (s.goto p (.iderw i reading))) with }
  rw [System.iderw]
  split_ifs
  · exact h.stop _
  · exact h.stop _
  · exact hnext.idestart
  · exact hnext

theorem Contents.bwrite (hc : Control s) (hs : s.Holds p i) : Contents disk₀ (s.bwrite p i) := by
  rw [System.bwrite]
  split_ifs
  · exact h.stop _
  · exact (h.written hc hs _).iderw

theorem Contents.brelse : Contents disk₀ (s.brelse p i) := by
  rw [System.brelse]
  split_ifs
  · exact h.stop _
  · apply Contents.wakeup
    refine h.same ⟨fun j => ?_, fun j hj => ?_, fun q => ?_, fun q k hk => ?_, rfl, rfl⟩
    · simp only [System.setBuf, System.setProc, update_apply]
      split_ifs with hji
      · rw [hji]
      · rfl
    · simp only [System.setBuf, System.setProc, update_apply] at hj
      split_ifs at hj
      · exact Or.inl hj
    · exact map_update Proc.modified (by rfl) q
    · simp only [System.setBuf, System.setProc, update_apply] at hk
      split_ifs at hk with hq
      · exact Or.inl (hq ▸ hk)
      · exact Or.inl hk

end Contents

theorem Control.not_modified (hc : Control s) (hi : i ∈ s.idequeue) (q : Fin n) :
    i ∉ (s.procs q).modified := by
  obtain ⟨p, r, hpc⟩ := hc.queued i hi
  have hp := (hc.procs p).uses i (by rw [hpc]; rfl)
  intro hin
  have hq := hc.owner q p i ((hc.procs q).modified hin) hp.1
  exact hp.2 (hq ▸ hin)

theorem Contents.complete (h : Contents disk₀ s) (hc : Control s) (hi : i ∈ s.idequeue) {b : Buf}
    (hbufs : s'.bufs = update s.bufs i b) (hprocs : s'.procs = s.procs)
    (htrace : s'.trace = s.trace) (hdev : b.dev = (s.bufs i).dev)
    (hblock : b.blockno = (s.bufs i).blockno)
    (hdata : b.data = contents disk₀ s.trace (s.bufs i).key)
    (hdisk : s'.disk = update s.disk (s.bufs i).key b.data) :
    Contents disk₀ s' := by
  obtain ⟨p, r, hpc⟩ := hc.queued i hi
  have hbusy := (hc.busy i).mpr ⟨p, ((hc.procs p).uses i (by rw [hpc]; rfl)).1⟩
  have hused := h.dev_of_busy hbusy
  have hkey (j : Fin NBUF) : (s'.bufs j).key = (s.bufs j).key := by
    rw [hbufs]
    exact map_update Buf.key (by rw [Buf.key, hdev, hblock]; rfl) j
  refine ⟨fun j l hj => ?_, fun j => ?_, fun q k => ?_, fun j hj hm => ?_, fun k hk => ?_, ?_⟩
  · rw [hkey, hkey]
    have hdev_eq : (s'.bufs j).dev = (s.bufs j).dev := congrArg Prod.fst (hkey j)
    exact h.unique j l (hdev_eq ▸ hj)
  · rw [hbufs, update_apply]
    split_ifs
    · exact Or.inl (hdev ▸ hused)
    · exact h.used j
  · rw [hprocs]
    exact h.asked q k
  · rw [htrace, hkey]
    by_cases hji : j = i
    · rw [hbufs, hji, update_self]
      exact hdata
    · rw [hbufs, update_of_ne hji] at hj ⊢
      exact h.data j hj fun q => hprocs ▸ hm q
  · rw [hdisk, htrace]
    by_cases hki : k = (s.bufs i).key
    · rw [hki, update_self]
      exact hdata
    · rw [update_of_ne hki]
      refine h.disk k fun j hj => ?_
      have hji : j ≠ i := by
        rintro rfl
        exact hki hj.symm
      have hclean := hk j ((hkey j).trans hj)
      rwa [hbufs, update_of_ne hji] at hclean
  · rw [htrace]
    exact h.reads

theorem Contents.ideintr (h : Contents disk₀ s) (hc : Control s) : Contents disk₀ s.ideintr := by
  rw [System.ideintr]
  split
  · exact h
  next i rest hq =>
    have hi : i ∈ s.idequeue := hq ▸ List.mem_cons_self
    apply Contents.idestart
    apply Contents.wakeup
    split_ifs with hdirty
    · have hdata := h.data i (hc.dirty i hdirty) (hc.not_modified hi)
      exact h.complete hc hi rfl rfl rfl rfl rfl hdata rfl
    · obtain ⟨p, r, hpc⟩ := hc.queued i hi
      have hbusy := (hc.busy i).mpr ⟨p, ((hc.procs p).uses i (by rw [hpc]; rfl)).1⟩
      have hdisk : s.disk (s.bufs i).key = contents disk₀ s.trace (s.bufs i).key := by
        refine h.disk _ fun j hj => ?_
        rw [← h.unique i j (h.dev_of_busy hbusy) hj.symm]
        simpa using hdirty
      exact h.complete hc hi rfl rfl rfl rfl rfl hdisk (update_eq_self _ _).symm

theorem Contents.returned (h : Contents disk₀ s) (hvalid : (s.bufs i).valid = true)
    (hm : ∀ q, i ∉ (s.procs q).modified) : Contents disk₀ (s.returned p i) := by
  have hgo : Contents disk₀ (s.goto p .running) := h.goto nofun
  have hcontents : contents disk₀ (s.returned p i).trace = contents disk₀ s.trace :=
    contents_read ..
  refine ⟨hgo.unique, hgo.used, hgo.asked, ?_, ?_, readsBack_append h.reads fun k data heq => ?_⟩
  · rw [hcontents]
    exact hgo.data
  · rw [hcontents]
    exact hgo.disk
  · cases heq
    exact h.data i hvalid hm

theorem Contents.step (h : Contents disk₀ s) (hc : Control s)
    (hring : ∃ l, s.ring.IsRing l ∧ ∀ i, i ∈ l) (a : Action n) : Contents disk₀ (step s a) := by
  have hmove := move_step s a
  generalize Shared.step s a = s' at hmove ⊢
  cases hmove with
  | still => exact h
  | stop msg _ => exact h.stop msg
  | @ask p dev blockno _ =>
    refine h.goto fun k hk => Or.inr ?_
    obtain rfl := Option.some.inj hk
    have hdev := dev.isLt
    simp only [IsDev, BitVec.toNat_ofNat]
    omega
  | sleep hpc => exact h.goto fun k hk => Or.inl (by rwa [hpc])
  | @find p k i hpc hkey _ =>
    have hdev : (s.bufs i).dev = k.1 := congrArg Prod.fst hkey
    exact h.find (hdev ▸ h.asked p k (by rw [hpc]; rfl))
  | @recycle p k i hpc hnew _ hclean =>
    obtain ⟨l, hl, hall⟩ := hring
    rw [hl.walk_next (by simpa using hl.nodup.length_le_card)] at hnew
    exact h.recycle (h.asked p k (by rw [hpc]; rfl)) (fun j => hnew j (hall j)) hclean
  | noBuffers => exact h.stop _
  | fetch => exact h.iderw
  | @returned p i huses hvalid _ =>
    have hp := (hc.procs p).uses i huses
    exact h.returned hvalid fun q hin =>
      hp.2 (hc.owner q p i ((hc.procs q).modified hin) hp.1 ▸ hin)
  | resume => exact h.goto nofun
  | modify => exact h.modify _
  | logWrite hs => exact h.written hc hs _
  | bwrite hs _ => exact h.bwrite hc hs
  | brelse => exact h.brelse
  | ideintr => exact h.ideintr hc

theorem contents_boot : Contents disk₀ (System.boot n disk₀) where
  unique i j hi := absurd hi (show ¬ IsDev (-1) by decide)
  used i := Or.inr ⟨rfl, rfl, rfl⟩
  asked p k := nofun
  data i := nofun
  disk k _ := rfl
  reads pre k data post heq := by simp [System.boot] at heq

end Contents

variable {r : Bool}

section RingOfBuffers

variable {n : ℕ} {s : System n}

def System.Ringed (s : System n) : Prop := ∃ l, s.ring.IsRing l ∧ ∀ i, i ∈ l

theorem ringed_binit : ∃ l, binit.IsRing l ∧ ∀ i, i ∈ l := by
  have hfold (xs : List (Fin NBUF)) (r : LinkedRing (Fin NBUF)) (l : List (Fin NBUF))
      (hr : r.IsRing l) (hxs : xs.Nodup) (hdisj : ∀ x ∈ xs, x ∉ l) :
      ∃ l', (xs.foldl LinkedRing.pushFront r).IsRing l' ∧ ∀ i, i ∈ xs ∨ i ∈ l → i ∈ l' := by
    induction xs generalizing r l with
    | nil => exact ⟨l, hr, fun i hi => hi.elim nofun id⟩
    | cons x xs ih =>
      obtain ⟨hx, hxs⟩ := List.nodup_cons.mp hxs
      obtain ⟨l', hl', hmem⟩ := ih (r.pushFront x) (x :: l)
        (hr.pushFront (hdisj x List.mem_cons_self)) hxs fun y hy => by
          rw [List.mem_cons, not_or]
          exact ⟨fun heq => hx (heq ▸ hy), hdisj y (List.mem_cons_of_mem _ hy)⟩
      refine ⟨l', hl', fun i hi => hmem i ?_⟩
      simp only [List.mem_cons] at hi ⊢
      tauto
  obtain ⟨l, hl, hmem⟩ := hfold _ _ _ LinkedRing.isRing_empty (List.nodup_finRange NBUF) nofun
  exact ⟨l, hl, fun i => hmem i (Or.inl (List.mem_finRange i))⟩

theorem idestart_eq : ∃ msg, s.idestart = { s with panic := msg } := by
  rw [System.idestart]
  split
  · exact ⟨s.panic, rfl⟩
  · split_ifs
    · exact ⟨_, rfl⟩
    · exact ⟨s.panic, rfl⟩

theorem bufs_idestart : s.idestart.bufs = s.bufs := by
  obtain ⟨msg, h⟩ := idestart_eq (s := s)
  rw [h]

theorem ring_idestart : s.idestart.ring = s.ring := by
  obtain ⟨msg, h⟩ := idestart_eq (s := s)
  rw [h]

theorem logged_idestart : s.idestart.logged = s.logged := by
  obtain ⟨msg, h⟩ := idestart_eq (s := s)
  rw [h]

theorem idequeue_idestart : s.idestart.idequeue = s.idequeue := by
  obtain ⟨msg, h⟩ := idestart_eq (s := s)
  rw [h]

variable {i : Fin NBUF} {p : Fin n}

theorem bufs_iderw : (s.iderw p i r).bufs = s.bufs := by
  rw [System.iderw]
  split_ifs
  · rfl
  · rfl
  · exact bufs_idestart
  · rfl

theorem ring_iderw : (s.iderw p i r).ring = s.ring := by
  rw [System.iderw]
  split_ifs
  · rfl
  · rfl
  · exact ring_idestart
  · rfl

theorem logged_iderw : (s.iderw p i r).logged = s.logged := by
  rw [System.iderw]
  split_ifs
  · rfl
  · rfl
  · exact logged_idestart
  · rfl

theorem idequeue_iderw (hbusy : (s.bufs i).busy = true)
    (hready : ¬ (s.bufs i).Ready) : (s.iderw p i r).idequeue = s.idequeue ++ [i] := by
  have hnot : ¬ ((s.bufs i).valid = true ∧ (s.bufs i).dirty = false) := hready
  simp only [System.iderw, hbusy, Bool.true_eq_false, if_false, if_neg hnot]
  split_ifs
  · exact idequeue_idestart
  · rfl

theorem System.Ringed.brelse (h : s.Ringed) : (s.brelse p i).Ringed := by
  obtain ⟨l, hl, hall⟩ := h
  rw [System.brelse]
  split_ifs
  · exact ⟨l, hl, hall⟩
  · have hnot : i ∉ l.erase i := hl.nodup.not_mem_erase
    refine ⟨i :: l.erase i, (hl.unlink (hall i)).pushFront hnot, fun j => ?_⟩
    by_cases hj : j = i
    · exact hj ▸ List.mem_cons_self
    · exact List.mem_cons_of_mem _ ((List.mem_erase_of_ne hj).mpr (hall j))

theorem System.Ringed.step (h : s.Ringed) (a : Action n) : (step s a).Ringed := by
  have hmove := move_step s a
  generalize Shared.step s a = s' at hmove ⊢
  cases hmove with
  | fetch =>
    rw [System.Ringed, ring_iderw]
    exact h
  | bwrite _ hbusy =>
    rw [System.Ringed, System.bwrite, if_neg hbusy, ring_iderw]
    exact h
  | brelse => exact h.brelse
  | ideintr =>
    rw [System.ideintr]
    split
    · exact h
    · rw [System.Ringed, ring_idestart]
      split_ifs <;> exact h
  | _ => exact h

end RingOfBuffers

section Refinement

variable {n : ℕ} {disk₀ : Store} {s : System n}

theorem key_step (a : Action n) {j : Fin NBUF} (hj : (s.bufs j).dirty = true) :
    ((step s a).bufs j).key = (s.bufs j).key := by
  have hmove := move_step s a
  generalize Shared.step s a = s' at hmove ⊢
  cases hmove with
  | find => exact map_update Buf.key (by rfl) j
  | @recycle p k i _ _ _ hclean =>
    have hne : j ≠ i := by
      rintro rfl
      rw [hclean] at hj
      cases hj
    simp only [System.hand, System.setBuf, System.setProc, update_of_ne hne]
  | fetch => rw [bufs_iderw]
  | modify => exact map_update Buf.key (by rfl) j
  | logWrite => exact map_update Buf.key (by rfl) j
  | bwrite _ hbusy =>
    rw [System.bwrite, if_neg hbusy, bufs_iderw]
    exact map_update Buf.key (by rfl) j
  | brelse _ _ hbusy =>
    rw [System.brelse, if_neg hbusy]
    exact map_update Buf.key (by rfl) j
  | ideintr =>
    rw [System.ideintr]
    split
    · rfl
    · rw [bufs_idestart]
      split_ifs
      · exact map_update Buf.key (by rfl) j
      · exact map_update Buf.key (by rfl) j
  | _ => rfl

structure RefinesFlat (disk₀ : Store) (s : System n) : Prop where
  reads : ReadsBack disk₀ s.trace
  unique : ∀ i j, IsDev (s.bufs i).dev → (s.bufs i).key = (s.bufs j).key → i = j
  busy : ∀ i, (s.bufs i).busy = true ↔ ∃ p, i ∈ (s.procs p).held
  holder : ∀ p q i, i ∈ (s.procs p).held → i ∈ (s.procs q).held → p = q
  dirty : ∀ a i, (s.bufs i).dirty = true → ((step s a).bufs i).key = (s.bufs i).key
  ring : ∃ l, s.ring.IsRing l ∧ ∀ i, l.count i = 1

structure Sound (disk₀ : Store) (s : System n) : Prop where
  control : Control s
  contents : Contents disk₀ s
  ringed : s.Ringed

theorem sound_boot : Sound disk₀ (System.boot n disk₀) :=
  ⟨control_boot disk₀, contents_boot, ringed_binit⟩

theorem Sound.step (h : Sound disk₀ s) (a : Action n) : Sound disk₀ (step s a) :=
  ⟨h.control.step a, h.contents.step h.control h.ringed a, h.ringed.step a⟩

theorem Sound.refinesFlat (h : Sound disk₀ s) : RefinesFlat disk₀ s where
  reads := h.contents.reads
  unique := h.contents.unique
  busy := h.control.busy
  holder := h.control.owner
  dirty a _ hi := key_step a hi
  ring := by
    obtain ⟨l, hl, hall⟩ := h.ringed
    exact ⟨l, hl, fun i => List.count_eq_one_of_mem hl.nodup (hall i)⟩

end Refinement

section Buffers

variable {n : ℕ} {disk₀ : Store} {s : System n} {p : Fin n} {i : Fin NBUF}

def System.Pinned (s : System n) : Prop :=
  ∀ i, (s.bufs i).dirty = true → (s.bufs i).key ∈ s.logged ∨ i ∈ s.idequeue

def System.heldCount (s : System n) : ℕ := ∑ p, (s.procs p).held.card

def HasRoom (s : System n) : Action n → Prop
  | .step p =>
    match (s.procs p).pc with
    | .bget _ => s.logged.card + s.heldCount < NBUF
    | _ => True
  | _ => True

instance : ∀ a, Decidable (HasRoom s a)
  | .step p =>
    match h : (s.procs p).pc with
    | .bget _ => decidable_of_iff (s.logged.card + s.heldCount < NBUF) (by rw [HasRoom, h])
    | .running | .asleep _ _ | .got _ | .iderw _ _ => .isTrue (by rw [HasRoom, h]; trivial)
  | .bread _ _ _ | .modify _ _ _ | .logWrite _ _ | .bwrite _ _ | .brelse _ _ | .ideintr =>
    .isTrue trivial

theorem Sound.card_le (h : Sound disk₀ s) (hpin : s.Pinned)
    (hfull : ∀ i, (s.bufs i).busy = true ∨ (s.bufs i).dirty = true) :
    NBUF ≤ s.logged.card + s.heldCount := by
  let busy : Finset (Fin NBUF) := Finset.univ.biUnion fun p => (s.procs p).held
  let pinned : Finset (Fin NBUF) := Finset.univ \ busy
  have hbusy : busy.card ≤ s.heldCount := Finset.card_biUnion_le
  have hpinned : pinned.card ≤ s.logged.card := by
    have hnot (i : Fin NBUF) (hi : i ∈ pinned) :
        (s.bufs i).busy = false ∧ (s.bufs i).dirty = true := by
      have hfree : (s.bufs i).busy = false := by
        by_contra hb
        obtain ⟨q, hq⟩ := (h.control.busy i).mp (by simpa using hb)
        exact (Finset.mem_sdiff.mp hi).2 (Finset.mem_biUnion.mpr ⟨q, Finset.mem_univ q, hq⟩)
      exact ⟨hfree, (hfull i).resolve_left (by rw [hfree]; exact Bool.false_ne_true)⟩
    refine Finset.card_le_card_of_injOn (fun i => (s.bufs i).key) (fun i hi => ?_) ?_
    · obtain ⟨hfree, hdirty⟩ := hnot i hi
      exact (hpin i hdirty).resolve_right (h.control.not_queued hfree)
    · intro i hi j _ hkey
      obtain ⟨-, hdirty⟩ := hnot i hi
      exact h.contents.unique i j (h.contents.dev_of_dirty hdirty) hkey
  have hall : busy.card + pinned.card = NBUF := by
    rw [Finset.card_sdiff_of_subset (Finset.subset_univ _), Finset.card_univ, Fintype.card_fin]
    have hle := Finset.card_le_univ busy
    rw [Fintype.card_fin] at hle
    omega
  omega

theorem pinned_boot : (System.boot n disk₀).Pinned := fun _ hi => absurd hi Bool.false_ne_true

theorem System.Pinned.frame (h : s.Pinned) {s' : System n}
    (hkey : ∀ i, (s.bufs i).dirty = true → (s'.bufs i).key = (s.bufs i).key)
    (hdirty : ∀ i, (s'.bufs i).dirty = true → (s.bufs i).dirty = true)
    (hlogged : s'.logged = s.logged) (hqueue : s.idequeue ⊆ s'.idequeue) : s'.Pinned := by
  intro i hi
  have hold := hdirty i hi
  rw [hkey i hold, hlogged]
  exact (h i hold).imp_right (@hqueue i)

theorem dirty_of_update {bufs : Fin NBUF → Buf} {b : Buf} {j : Fin NBUF}
    (hb : b.dirty = true → (bufs i).dirty = true)
    (hj : (update bufs i b j).dirty = true) : (bufs j).dirty = true := by
  rw [update_apply] at hj
  split_ifs at hj with hji
  · rw [hji]
    exact hb hj
  · exact hj

theorem System.Pinned.logWrite (h : s.Pinned) : (s.logWrite p i).Pinned := by
  intro j hj
  have hkey : ((s.logWrite p i).bufs j).key = (s.bufs j).key := map_update Buf.key (by rfl) j
  rw [hkey, show (s.logWrite p i).logged = insert (s.bufs i).key s.logged from rfl,
    Finset.mem_insert]
  by_cases hji : j = i
  · exact .inl (.inl (by rw [hji]))
  · have hj' : (s.logWrite p i).bufs j = s.bufs j := update_of_ne hji _ _
    rw [hj'] at hj
    exact (h j hj).imp_left .inr

theorem Sound.bwrite_pinned (h : Sound disk₀ s) (hpin : s.Pinned) (hs : s.Holds p i) :
    (s.bwrite p i).Pinned := by
  have hbusy : (s.bufs i).busy = true := (h.control.busy i).mpr ⟨p, hs.2⟩
  let t := s.written p i (s.logged.erase (s.bufs i).key)
  have hti : t.bufs i = { s.bufs i with dirty := true } := update_self ..
  have hqueue : (t.iderw p i false).idequeue = s.idequeue ++ [i] := by
    refine idequeue_iderw ?_ ?_
    · rw [hti]
      exact hbusy
    · rw [hti]
      exact fun hready => Bool.false_ne_true hready.2.symm
  intro j hj
  rw [System.bwrite, if_neg (by simp [hbusy])] at hj ⊢
  rw [bufs_iderw] at hj ⊢
  rw [logged_iderw, hqueue, List.mem_append, List.mem_singleton]
  by_cases hji : j = i
  · exact .inr (.inr hji)
  have htj : t.bufs j = s.bufs j := update_of_ne hji _ _
  rw [htj] at hj ⊢
  -- another dirty buffer has another block, so its block stays logged
  refine (hpin j hj).imp (fun hin => Finset.mem_erase.mpr ⟨fun hkey => hji ?_, hin⟩) Or.inl
  exact h.contents.unique j i (h.contents.dev_of_dirty hj) hkey

theorem System.Pinned.ideintr (hpin : s.Pinned) : s.ideintr.Pinned := by
  rw [System.ideintr]
  split
  next => exact hpin
  next i rest hq =>
    -- the head of the queue is clean now
    have hdone (t : System n) (b : Buf) (ht : t.bufs = update s.bufs i b)
        (hlogged : t.logged = s.logged) (hb : b.dirty = false) :
        ({ t with idequeue := rest }.wakeup i).idestart.Pinned := by
      intro j hj
      rw [bufs_idestart] at hj ⊢
      rw [logged_idestart, idequeue_idestart]
      simp only [System.wakeup, ht, hlogged] at hj ⊢
      have hji : j ≠ i := by
        rintro rfl
        rw [update_self, hb] at hj
        cases hj
      rw [update_of_ne hji] at hj ⊢
      refine (hpin j hj).imp_right fun hin => ?_
      rw [hq] at hin
      exact (List.mem_cons.mp hin).resolve_left hji
    dsimp only
    split_ifs
    · exact hdone _ _ rfl rfl rfl
    · exact hdone _ _ rfl rfl rfl

theorem Sound.step_pinned (h : Sound disk₀ s) (hpin : s.Pinned) (a : Action n) :
    (Shared.step s a).Pinned := by
  have hkey {j : Fin NBUF} := key_step (s := s) (j := j) a
  have hmove := move_step s a
  generalize Shared.step s a = s' at hkey hmove ⊢
  have hframe (hdirty : ∀ j, (s'.bufs j).dirty = true → (s.bufs j).dirty = true)
      (hlogged : s'.logged = s.logged) (hqueue : s.idequeue ⊆ s'.idequeue) : s'.Pinned :=
    hpin.frame (fun j => hkey) hdirty hlogged hqueue
  cases hmove with
  | find => exact hframe (fun j => dirty_of_update id) rfl (List.Subset.refl _)
  | recycle =>
    exact hframe (fun j => dirty_of_update fun hd => absurd hd Bool.false_ne_true) rfl
      (List.Subset.refl _)
  | @fetch p i hpc hvalid =>
    have hheld := ((h.control.procs p).uses i (by rw [hpc]; rfl)).1
    refine hframe (fun j hj => by rwa [bufs_iderw] at hj) logged_iderw ?_
    rw [idequeue_iderw ((h.control.busy i).mpr ⟨p, hheld⟩) fun hready => hvalid hready.1]
    exact List.subset_append_left _ _
  | modify => exact hframe (fun j => dirty_of_update id) rfl (List.Subset.refl _)
  | logWrite => exact hpin.logWrite
  | bwrite hs _ => exact h.bwrite_pinned hpin hs
  | brelse _ _ hbusy =>
    rw [System.brelse, if_neg hbusy] at hframe ⊢
    exact hframe (fun j => dirty_of_update id) rfl (List.Subset.refl _)
  | ideintr => exact hpin.ideintr
  | _ => exact hpin

def System.NoBuffers (s : System n) : Prop := s.panic = some "bget: no buffers"

instance : Decidable s.NoBuffers := inferInstanceAs (Decidable (_ = _))

theorem not_noBuffers_idestart (h : ¬ s.NoBuffers) : ¬ s.idestart.NoBuffers := by
  rw [System.idestart]
  split
  · exact h
  · split_ifs
    · exact fun hp => absurd hp (by simp [System.NoBuffers, System.stop])
    · exact h

theorem not_noBuffers_iderw (h : ¬ s.NoBuffers) : ¬ (s.iderw p i r).NoBuffers := by
  rw [System.iderw]
  split_ifs
  · simp [System.NoBuffers, System.stop]
  · simp [System.NoBuffers, System.stop]
  · exact not_noBuffers_idestart h
  · exact h

theorem Sound.not_noBuffers (h : Sound disk₀ s) (hpin : s.Pinned) (hs : ¬ s.NoBuffers)
    (a : Action n) (hroom : HasRoom s a) : ¬ (Shared.step s a).NoBuffers := by
  have hmove := move_step s a
  generalize Shared.step s a = s' at hmove ⊢
  cases hmove with
  | stop msg hmsg => exact fun hp => hmsg (Option.some.inj hp)
  | noBuffers hpc hfull =>
    -- `bget` comes to every buffer on its walk from the end of the ring
    obtain ⟨l, hl, hall⟩ := h.ringed
    rw [hl.walk_prev (by simpa using hl.nodup.length_le_card)] at hfull
    simp only [HasRoom, hpc] at hroom
    have := h.card_le hpin fun i => hfull i (List.mem_reverse.mpr (hall i))
    omega
  | fetch => exact not_noBuffers_iderw hs
  | bwrite _ hbusy =>
    rw [System.bwrite, if_neg hbusy]
    exact not_noBuffers_iderw hs
  | brelse _ _ hbusy =>
    rw [System.brelse, if_neg hbusy]
    exact hs
  | ideintr =>
    rw [System.ideintr]
    split
    · exact hs
    · apply not_noBuffers_idestart
      split_ifs <;> exact hs
  | _ => exact hs

theorem always_not_noBuffers (disk₀ : Store) (acts : List (Action n))
    (h : Along step HasRoom (System.boot n disk₀) acts) :
    Always step (fun s => ¬ s.NoBuffers) (System.boot n disk₀) acts := by
  refine h.always (I := fun s => Sound disk₀ s ∧ s.Pinned ∧ ¬ s.NoBuffers)
    ⟨sound_boot, pinned_boot, Option.some_ne_none _ |>.symm⟩ ?_ fun s h => h.2.2
  rintro s a ⟨hsound, hpin, hs⟩ hroom
  exact ⟨hsound.step a, hsound.step_pinned hpin a, hsound.not_noBuffers hpin hs a hroom⟩

theorem always_not_noBuffers_one :
    Always step (fun s => ¬ s.NoBuffers) (System.boot 1 fun _ _ => 0) [.bread 0 1 7, .step 0] :=
  always_not_noBuffers (fun _ _ => 0) [.bread 0 1 7, .step 0] (by decide +kernel)

def System.Modest (s : System n) : Prop :=
  s.logged.card ≤ LOGSIZE ∧ ∀ p, (s.procs p).held.card ≤ 2

instance : Decidable s.Modest := inferInstanceAs (Decidable (_ ∧ _))

def readers : List (Action 31) :=
  (List.finRange 31).flatMap fun p => [.bread p 1 (BitVec.ofNat 32 (100 + p.val)), .step p]

theorem noBuffers_readers :
    Along step (fun s _ => s.Modest) (System.boot 31 fun _ _ => 0) readers ∧
      (run step (System.boot 31 fun _ _ => 0) readers).Modest ∧
      (run step (System.boot 31 fun _ _ => 0) readers).NoBuffers := by
  decide +kernel

end Buffers

end Xv6Prng.Fs.Shared
