import Xv6Prng.FileBytes

/-!
# The inode cache

What the kernel sees of an inode is the cached copy if there is one. Taking and dropping
references, locking and unlocking do not change that view, as long as an inode is written back
before its last reference is dropped and has a link left: `iput` frees it otherwise.
-/

namespace Xv6Prng.FileSys

open ByteWords Halting Fs BlockMap Function

structure SameRest (s t : State) : Prop where
  sb : t.sb = s.sb
  devsw : t.devsw = s.devsw
  logSize : t.logSize = s.logSize
  outstanding : t.outstanding = s.outstanding
  committed : t.committed = s.committed

theorem SameRest.refl (s : State) : SameRest s s := ⟨rfl, rfl, rfl, rfl, rfl⟩
theorem sameRest_of_eq {s t : State}
    (h : t = { s with disk := t.disk, icache := t.icache, lh := t.lh }) : SameRest s t := by
  rw [h]
  exact ⟨rfl, rfl, rfl, rfl, rfl⟩

/-- Only the cache has changed, and not what it shows. -/
structure SameView (s s' : State) : Prop where
  rest : s' = { s with icache := s'.icache }
  mounted : Mounted s'
  inode : ∀ j, s'.inode j = s.inode j

section View

variable {s s' : State}

variable (h : SameView s s')
include h

theorem SameView.trans {s'' : State} (h' : SameView s' s'') : SameView s s'' where
  rest := by
    rw [h'.rest, h.rest]
  mounted := h'.mounted
  inode j := (h'.inode j).trans (h.inode j)

theorem SameView.disk : s'.disk = s.disk := by
  rw [h.rest]

theorem SameView.sb : s'.sb = s.sb := by
  rw [h.rest]

theorem SameView.dinode (j : ℕ) : s'.dinode j = s.dinode j := by
  rw [State.dinode, State.dinode, h.disk, h.sb]

theorem SameView.bit (b : ℕ) : s'.bit b = s.bit b := by
  rw [State.bit, State.bit, h.disk, h.sb]

theorem SameView.live (j : ℕ) : s'.Live j ↔ s.Live j :=
  live_congr h.sb (h.inode j)

theorem SameView.addr (k : ℕ × ℕ) : s'.addr k = s.addr k :=
  addr_congr h.sb (fun j _ => h.inode j) (fun _ _ => by rw [h.disk]) k

theorem SameView.byte (j k : ℕ) : s'.byte j k = s.byte j k := by
  rw [State.byte, State.byte, h.addr, h.disk]

theorem SameView.contents (j : ℕ) : s'.contents j = s.contents j := by
  rw [State.contents, State.contents, h.inode, funext (h.byte j)]

theorem SameView.owns {loose : Set ℕ} (ho : Owns loose s) : Owns loose s' := by
  refine ⟨?_, fun b hb => ?_⟩
  · rw [h.sb]
    exact ho.owned.congr h.addr fun b _ _ => by rw [h.bit]
  · rw [h.bit]
    exact ho.meta_used b (h.sb ▸ hb)

theorem SameView.wellFormed (hs : WellFormed s) : WellFormed s' where
  mounted := h.mounted
  owns := h.owns hs.owns
  noHoles j hlive hfile bn hbn := by
    rw [h.inode] at hfile hbn
    rw [h.addr]
    exact hs.noHoles j ((h.live j).mp hlive) hfile bn hbn

end View

theorem WellFormed.congr {s s' : State} (h : WellFormed s) (hdisk : s'.disk = s.disk)
    (hsb : s'.sb = s.sb) (hcache : s'.icache = s.icache) (hlh : s'.lh.Nodup) : WellFormed s' := by
  cases s
  cases s'
  dsimp only at hdisk hsb hcache hlh
  subst hdisk hsb hcache
  exact ⟨⟨hlh, h.mounted.super, h.mounted.layout, h.mounted.unique, h.mounted.range⟩,
    ⟨h.owns.owned, h.owns.meta_used⟩, h.noHoles⟩

section Entry

variable {s : State} {ip : Fin NINODE} {x : Inode} {j : ℕ}

theorem icache_putInode_self : (s.putInode ip x).icache ip = x := update_self ..

theorem icache_putInode_of_ne {k : Fin NINODE} (hk : k ≠ ip) :
    (s.putInode ip x).icache k = s.icache k := update_of_ne hk _ _

theorem holds_putInode_self :
    (s.putInode ip x).Holds ip j ↔ 0 < x.ref ∧ x.valid = true ∧ x.inum = j := by
  rw [State.Holds, icache_putInode_self]

theorem holds_putInode_of_ne {k : Fin NINODE} (hk : k ≠ ip) :
    (s.putInode ip x).Holds k j ↔ s.Holds k j := by
  rw [State.Holds, State.Holds, icache_putInode_of_ne hk]

theorem Mounted.putInode (hm : Mounted s)
    (hx : 0 < x.ref → (1 ≤ x.inum ∧ x.inum < s.sb.ninodes.toNat) ∧
      ∀ k ≠ ip, 0 < (s.icache k).ref → (s.icache k).inum ≠ x.inum) : Mounted (s.putInode ip x) where
  __ := hm
  unique k l hk hl hkl := by
    by_cases hkip : k = ip <;> by_cases hlip : l = ip
    · rw [hkip, hlip]
    · rw [hkip, icache_putInode_self] at hk hkl
      rw [icache_putInode_of_ne hlip] at hl hkl
      exact absurd hkl.symm ((hx hk).2 l hlip hl)
    · rw [hlip, icache_putInode_self] at hl hkl
      rw [icache_putInode_of_ne hkip] at hk hkl
      exact absurd hkl ((hx hl).2 k hkip hk)
    · rw [icache_putInode_of_ne hkip] at hk hkl
      rw [icache_putInode_of_ne hlip] at hl hkl
      exact hm.unique k l hk hl hkl
  range k hk := by
    by_cases hkip : k = ip
    · rw [hkip, icache_putInode_self] at hk ⊢
      exact (hx hk).1
    · rw [icache_putInode_of_ne hkip] at hk ⊢
      exact hm.range k hk

theorem Mounted.putInode_same (hm : Mounted s) (href : 0 < x.ref → 0 < (s.icache ip).ref)
    (hinum : x.inum = (s.icache ip).inum) : Mounted (s.putInode ip x) := by
  refine hm.putInode fun hx => ?_
  rw [hinum]
  exact ⟨hm.range ip (href hx), fun k hk hkr heq => hk (hm.unique k ip hkr (href hx) heq)⟩

theorem sameView_putInode (hm : Mounted s) (hm' : Mounted (s.putInode ip x))
    (hholds : ∀ j, (0 < x.ref ∧ x.valid = true ∧ x.inum = j) ↔ s.Holds ip j)
    (hcopy : ∀ j, s.Holds ip j → x.copy = (s.icache ip).copy) : SameView s (s.putInode ip x) := by
  refine ⟨rfl, hm', fun j => inode_congr_of_holds hm hm' (fun k => ?_) (fun k hk => ?_) fun _ => rfl⟩
  · by_cases hkip : k = ip
    · rw [hkip, holds_putInode_self]
      exact hholds j
    · exact holds_putInode_of_ne hkip
  · by_cases hkip : k = ip
    · rw [hkip] at hk ⊢
      rw [icache_putInode_self]
      exact hcopy j hk
    · rw [icache_putInode_of_ne hkip]

def State.lock (s : State) (ip : Fin NINODE) : State :=
  s.putInode ip { s.icache ip with
    busy := true
    valid := true
    copy := s.inode (s.icache ip).inum }

section Lock

variable (hm : Mounted s) (href : 0 < (s.icache ip).ref)
include hm href

theorem inode_of_not_valid (hvalid : (s.icache ip).valid = false) :
    s.inode (s.icache ip).inum = s.dinode (s.icache ip).inum := by
  refine inode_of_not_holds fun k hk => ?_
  obtain rfl := hm.unique k ip hk.1 href hk.2.2
  exact absurd hk.2.1 (by rw [hvalid]; exact Bool.false_ne_true)

theorem sameView_lock : SameView s (s.lock ip) := by
  have hm' : Mounted (s.lock ip) := hm.putInode_same (fun _ => href) rfl
  refine ⟨rfl, hm', fun j => ?_⟩
  by_cases hj : (s.icache ip).inum = j
  · have hip' : (s.lock ip).Holds ip j := holds_putInode_self.mpr ⟨href, rfl, hj⟩
    rw [inode_of_holds hm' hip', State.lock, icache_putInode_self, ← hj]
  · refine inode_congr_of_holds hm hm' (fun k => ?_) (fun k hk => ?_) fun _ => rfl
    · by_cases hkip : k = ip
      · rw [hkip, State.lock, holds_putInode_self]
        exact ⟨fun h => absurd h.2.2 hj, fun h => absurd h.2.2 hj⟩
      · exact holds_putInode_of_ne hkip
    · have hkip : k ≠ ip := by
        rintro rfl
        exact hj hk.2.2
      rw [State.lock, icache_putInode_of_ne hkip]

theorem ilock_ends : Ends (ilock ip) s (fun _ s' => s' = s.lock ip ∧
        ((s.icache ip).valid = false → (s.inode (s.icache ip).inum).type ≠ 0))
      (fun _ _ => True) := by
  have hlt := (hm.layout.iblock_lt (hm.range ip href).2).2.trans hm.layout.bmapstart_lt_disk
  refine ends_get_bind ?_
  dsimp only
  rw [if_neg (by omega)]
  split_ifs with hbusy hvalid
  · exact ends_throw trivial
  · refine ends_of_ok (setInode_run _) ⟨?_, fun hnot => absurd (hnot.symm.trans hvalid) nofun⟩
    rw [State.lock, inode_of_holds hm ⟨href, hvalid, rfl⟩, hvalid]
  · have hview := inode_of_not_valid hm href (by simpa using hvalid)
    refine Ends.bind_of_eq (bread_run hlt) (Ends.bind_of_eq (setInode_run _) ?_)
    split_ifs with htype
    · exact ends_throw trivial
    · refine ends_pure ⟨?_, fun _ => by rwa [hview]⟩
      rw [State.lock, hview, State.dinode]

theorem ilock_run (hbusy : (s.icache ip).busy = false)
    (htype : (s.inode (s.icache ip).inum).type ≠ 0) : (ilock ip).run s = .ok () (s.lock ip) := by
  have hlt := (hm.layout.iblock_lt (hm.range ip href).2).2.trans hm.layout.bmapstart_lt_disk
  rw [ilock, get_bind]
  dsimp only
  rw [if_neg (by omega), if_neg (by rw [hbusy]; exact Bool.false_ne_true)]
  by_cases hvalid : (s.icache ip).valid = true
  · rw [if_pos hvalid, setInode_run, State.lock, inode_of_holds hm ⟨href, hvalid, rfl⟩, hvalid]
  · have hview := inode_of_not_valid hm href (by simpa using hvalid)
    rw [if_neg hvalid, bind_ok (bread_run hlt), bind_ok (setInode_run _), State.lock, hview]
    rw [hview, State.dinode] at htype
    rw [if_neg htype]
    rfl

end Lock

def State.unlock (s : State) (ip : Fin NINODE) : State :=
  s.putInode ip { s.icache ip with busy := false }

theorem sameView_unlock (hm : Mounted s) : SameView s (s.unlock ip) :=
  sameView_putInode hm (hm.putInode_same id rfl) (fun _ => Iff.rfl) fun _ _ => rfl

theorem iunlock_run (href : 0 < (s.icache ip).ref) (hbusy : (s.icache ip).busy = true) :
    (iunlock ip).run s = .ok () (s.unlock ip) := by
  rw [iunlock, get_bind]
  dsimp only
  rw [if_neg (by rw [hbusy]; simp; omega), setInode_run]
  rfl

def State.dup (s : State) (ip : Fin NINODE) : State :=
  s.putInode ip { s.icache ip with ref := (s.icache ip).ref + 1 }

theorem sameView_dup (hm : Mounted s) (href : 0 < (s.icache ip).ref) : SameView s (s.dup ip) :=
  sameView_putInode hm (hm.putInode_same (fun _ => href) rfl)
    (fun _ => ⟨fun h => ⟨href, h.2⟩, fun h => ⟨Nat.succ_pos _, h.2⟩⟩) fun _ _ => rfl

def State.fresh (s : State) (ip : Fin NINODE) (i : ℕ) : State :=
  s.putInode ip { s.icache ip with inum := i, ref := 1, busy := false, valid := false }

theorem sameView_fresh (hm : Mounted s) (href : (s.icache ip).ref = 0) {i : ℕ}
    (hi : 1 ≤ i ∧ i < s.sb.ninodes.toNat) (hnew : ∀ k, 0 < (s.icache k).ref → (s.icache k).inum ≠ i) :
    SameView s (s.fresh ip i) := by
  have hnot (j : ℕ) : ¬ s.Holds ip j := fun h => h.1.ne' href
  exact sameView_putInode hm (hm.putInode fun _ => ⟨hi, fun k _ hk => hnew k hk⟩)
    (fun j => ⟨fun h => absurd h.2.1 Bool.false_ne_true, fun h => absurd h (hnot j)⟩)
    fun j h => absurd h (hnot j)

theorem iget_ends {i : ℕ} :
    Ends (iget i) s
      (fun k s' => 0 < (s.icache k).ref ∧ (s.icache k).inum = i ∧ s' = s.dup k ∨
        (s.icache k).ref = 0 ∧ (∀ l, 0 < (s.icache l).ref → (s.icache l).inum ≠ i) ∧
          s' = s.fresh k i)
      (fun e _ => e = .panic "iget: no inodes" ∧
        ∀ k, 0 < (s.icache k).ref ∧ (s.icache k).inum ≠ i) := by
  refine ends_get_bind ?_
  split
  next k hk =>
    have hfound : 0 < (s.icache k).ref ∧ (s.icache k).inum = i := by
      simpa using List.find?_some hk
    exact Ends.bind_of_eq (setInode_run _) (ends_pure (.inl ⟨hfound.1, hfound.2, rfl⟩))
  next hnone =>
    have hnew (l : Fin NINODE) (hl : 0 < (s.icache l).ref) : (s.icache l).inum ≠ i := by
      have hnot := List.find?_eq_none.mp hnone l (List.mem_finRange l)
      intro heq
      exact hnot (by simp [hl, heq])
    split
    next k hk =>
      have hfree : (s.icache k).ref = 0 := by simpa using List.find?_some hk
      exact Ends.bind_of_eq (setInode_run _) (ends_pure (.inr ⟨hfree, hnew, rfl⟩))
    next hfull =>
      refine ends_throw ⟨rfl, fun l => ?_⟩
      have hl : 0 < (s.icache l).ref := by
        simpa [Nat.pos_iff_ne_zero] using List.find?_eq_none.mp hfull l (List.mem_finRange l)
      exact ⟨hl, hnew l hl⟩

theorem sameView_forget (hm : Mounted s) (href : 0 < (s.icache ip).ref)
    (hm' : Mounted (s.putInode ip x)) (hx : 0 < x.ref → x.valid = false)
    (hsync : s.inode (s.icache ip).inum = s.dinode (s.icache ip).inum) :
    SameView s (s.putInode ip x) := by
  have hnot (j : ℕ) : ¬ (s.putInode ip x).Holds ip j := by
    rw [holds_putInode_self]
    exact fun h => absurd ((hx h.1).symm.trans h.2.1) Bool.false_ne_true
  refine ⟨rfl, hm', fun j => ?_⟩
  by_cases hj : (s.icache ip).inum = j
  · rw [← hj, hsync]
    refine inode_of_not_holds fun k hk => ?_
    by_cases hkip : k = ip
    · exact hnot _ (hkip ▸ hk)
    · rw [holds_putInode_of_ne hkip] at hk
      exact hkip (hm.unique k ip hk.1 href hk.2.2)
  · refine inode_congr_of_holds hm hm' (fun k => ?_) (fun k hk => ?_) fun _ => rfl
    · by_cases hkip : k = ip
      · rw [hkip]
        exact ⟨fun h => absurd h (hnot j), fun h => absurd h.2.2 hj⟩
      · exact holds_putInode_of_ne hkip
    · have hkip : k ≠ ip := by
        rintro rfl
        exact hj hk.2.2
      rw [icache_putInode_of_ne hkip]

def State.drop (s : State) (ip : Fin NINODE) : State :=
  s.putInode ip { s.icache ip with ref := (s.icache ip).ref - 1 }

theorem dropRef_run : (dropRef ip).run s = .ok () (s.drop ip) := rfl

theorem iput_run (hkeep : ¬ ((s.icache ip).ref = 1 ∧ (s.icache ip).valid = true ∧
    (s.icache ip).copy.nlink = 0)) : (iput ip).run s = .ok () (s.drop ip) := by
  rw [iput, get_bind]
  dsimp only
  rw [if_neg hkeep]
  exact dropRef_run

theorem sameView_drop (hm : Mounted s) (href : 0 < (s.icache ip).ref)
    (hsync : (s.icache ip).ref = 1 → s.inode (s.icache ip).inum = s.dinode (s.icache ip).inum) :
    SameView s (s.drop ip) := by
  have hm' : Mounted (s.drop ip) := hm.putInode_same (fun _ => href) rfl
  by_cases hone : (s.icache ip).ref = 1
  · refine sameView_forget hm href hm' (fun h => ?_) (hsync hone)
    dsimp only at h
    omega
  · refine sameView_putInode hm hm' (fun _ => ?_) fun _ _ => rfl
    dsimp only
    rw [State.Holds]
    refine and_congr ?_ Iff.rfl
    omega

end Entry

structure SameRefs (s s' : State) : Prop where
  rest : s' = { s with icache := s'.icache }
  used : ∀ k, 0 < (s.icache k).ref → s'.icache k = s.icache k
  unused : ∀ k, (s.icache k).ref = 0 → (s'.icache k).ref = 0

section Refs

variable {s s' : State} {ip : Fin NINODE} {i : ℕ}

theorem SameRefs.refl (s : State) : SameRefs s s := ⟨rfl, fun _ _ => rfl, fun _ h => h⟩

theorem SameRefs.pos_iff (h : SameRefs s s') (k : Fin NINODE) :
    0 < (s'.icache k).ref ↔ 0 < (s.icache k).ref := by
  rcases Nat.eq_zero_or_pos (s.icache k).ref with hk | hk
  · rw [h.unused k hk, hk]
  · rw [h.used k hk]

theorem SameRefs.mounted (h : SameRefs s s') (hm : Mounted s) : Mounted s' where
  nodup := by
    rw [h.rest]
    exact hm.nodup
  super := by
    rw [h.rest]
    exact hm.super
  layout := by
    rw [h.rest]
    exact hm.layout
  unique k l hk hl heq := by
    rw [h.pos_iff] at hk hl
    rw [h.used k hk, h.used l hl] at heq
    exact hm.unique k l hk hl heq
  range k hk := by
    rw [h.pos_iff] at hk
    rw [h.used k hk, h.rest]
    exact hm.range k hk

theorem SameRefs.sameView (h : SameRefs s s') (hm : Mounted s) : SameView s s' := by
  refine ⟨h.rest, h.mounted hm, fun j => inode_congr_of_holds hm (h.mounted hm) (fun k => ?_)
    (fun k hk => ?_) fun _ => by rw [h.rest]; rfl⟩
  · rw [State.Holds, State.Holds]
    rcases Nat.eq_zero_or_pos (s.icache k).ref with hk | hk
    · simp only [h.unused k hk, hk, Nat.lt_irrefl, false_and]
    · rw [h.used k hk]
  · rw [h.used k hk.1]

theorem iput_of_iget (h : 0 < (s.icache ip).ref ∧ (s.icache ip).inum = i ∧ s' = s.dup ip ∨
      (s.icache ip).ref = 0 ∧ (∀ l, 0 < (s.icache l).ref → (s.icache l).inum ≠ i) ∧
        s' = s.fresh ip i) {E : Halt → State → Prop} :
    Ends (iput ip) s' (fun _ t => SameRefs s t) E := by
  rcases h with ⟨href, -, rfl⟩ | ⟨href, -, rfl⟩
  · refine ends_get_bind ?_
    dsimp only
    rw [if_neg (by rw [State.dup, icache_putInode_self]; dsimp only; omega)]
    refine ends_of_ok dropRef_run ?_
    have hsame : (s.dup ip).drop ip = s := by
      simp only [State.drop, State.dup, State.putInode, update_self, update_idem,
        Nat.add_sub_cancel, update_eq_self]
    rw [hsame]
    exact .refl s
  · refine ends_get_bind ?_
    dsimp only
    rw [if_neg (by rw [State.fresh, icache_putInode_self]; simp)]
    refine ends_of_ok dropRef_run ⟨rfl, fun k hk => ?_, fun k hk => ?_⟩
    · have hne : k ≠ ip := by
        rintro rfl
        omega
      rw [State.drop, icache_putInode_of_ne hne, State.fresh, icache_putInode_of_ne hne]
    · by_cases hkip : k = ip
      · rw [hkip, State.drop, icache_putInode_self, State.fresh, icache_putInode_self]
        rfl
      · rw [State.drop, icache_putInode_of_ne hkip, State.fresh, icache_putInode_of_ne hkip]
        exact hk

end Refs

def Dinode.cleared (d : Dinode) : Dinode := { d with size := 0, addrs := fun _ => 0 }

end Xv6Prng.FileSys
