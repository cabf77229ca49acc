import Xv6Prng.InodeCache

/-!
# The transactions of `filewrite`

`filewrite` cuts a write into pieces and opens a transaction for each. A piece changes the data
blocks it spans, and at most the indirect block, the bit map and the inode besides. What
`begin_op` reserves is enough only for pieces of a few blocks.
-/

namespace Xv6Prng.FileSys

open ByteWords Halting Fs BlockMap Function

structure File where
  readable : Bool
  writable : Bool
  ip : Fin NINODE
  off : Word
  deriving DecidableEq

abbrev maxWrite : ℕ := (LOGSIZE - 1 - 1 - 2) / 2 * 512

abbrev File.inum (f : File) (s : State) : ℕ := (s.icache f.ip).inum

def filewriteChunk (f : File) (src : ℕ → Byte) (n1 : ℕ) : M (Option ℕ × File) := do
  beginOp
  ilock f.ip
  let r ← writei f.ip src f.off (BitVec.ofNat 32 n1)
  iunlock f.ip
  endOp
  return (r, { f with off := f.off + BitVec.ofNat 32 (r.getD 0) })

def filewriteLoop (src : ℕ → Byte) (n : ℕ) : ℕ → ℕ → File → M (ℕ × File)
  | 0, i, f => return (i, f)
  | fuel + 1, i, f =>
    if n ≤ i then return (i, f)
    else do
      let n1 := min (n - i) maxWrite
      let (r, f) ← filewriteChunk f (fun j => src (i + j)) n1
      match r with
      | none => return (i, f)
      | some r =>
        if r ≠ n1 then throw (.panic "short filewrite") else filewriteLoop src n fuel (i + r) f

def filewrite (f : File) (src : ℕ → Byte) (n : ℤ) : M (ℤ × File) :=
  if f.writable = false then return (-1, f)
  else do
    let (i, f) ← filewriteLoop src n.toNat n.toNat 0 f
    return (if (i : ℤ) = n then n else -1, f)

structure Resting (s : State) : Prop where
  wf : WellFormed s
  outstanding : s.outstanding = 0
  lh : s.lh = []

/-- An open file that nobody has locked, between transactions. -/
structure File.Ready (f : File) (s : State) : Prop where
  resting : Resting s
  ref : 0 < (s.icache f.ip).ref
  busy : (s.icache f.ip).busy = false
  isFile : (s.inode (f.inum s)).IsFile

def Commits (n : ℕ) (s s' : State) : Prop :=
  ∃ txs, s'.committed = s.committed ++ txs ∧ ∀ tx ∈ txs, tx.Nodup ∧ tx.length ≤ n

/-- `writei` does not refuse to write `n` bytes. -/
def File.Accepts (f : File) (n : ℕ) (s : State) : Prop :=
  f.off.toNat ≤ (s.inode (f.inum s)).size.toNat ∧ f.off.toNat + n ≤ MAXFILE * BSIZE

instance (f : File) (n : ℕ) (s : State) : Decidable (f.Accepts n s) :=
  inferInstanceAs (Decidable (_ ∧ _))

abbrev File.slots (f : File) (n : ℕ) : Finset ℕ := slotsOf f.off.toNat n

abbrev File.Misses (f : File) (n lo : ℕ) (s : State) : Prop :=
  ∃ a ∈ f.slots n, lo ≤ a ∧ s.addr (f.inum s, a) = 0

/-- The blocks that a write logs: those it spans, the indirect block if there is a slot to fill
behind the twelfth, the bit map if there is one at all, and the inode if the file grows. -/
def File.logCount (f : File) (n : ℕ) (s : State) : ℕ :=
  (span f.off.toNat n).card + (if f.Misses n NDIRECT s then 1 else 0) +
    (if f.Misses n 0 s then 1 else 0) +
    if (s.inode (f.inum s)).size.toNat < f.off.toNat + n then 1 else 0

def insertIf {α : Type} [DecidableEq α] (p : Prop) [Decidable p] (a : α) (A : Finset α) : Finset α :=
  if p then insert a A else A

section Insert

variable {α : Type} [DecidableEq α] {p : Prop} [Decidable p] {a b : α} {A : Finset α}

theorem mem_insertIf : b ∈ insertIf p a A ↔ b = a ∧ p ∨ b ∈ A := by
  unfold insertIf
  split_ifs with hp <;> simp [hp]

theorem card_insertIf (h : p → a ∉ A) : (insertIf p a A).card = A.card + if p then 1 else 0 := by
  unfold insertIf
  split_ifs with hp
  · exact Finset.card_insert_of_notMem (h hp)
  · rfl

end Insert

variable {src : ℕ → Byte}

section Chunk

variable {s s' s'' : State} {f : File} {i n off : ℕ}

theorem Written.length_lh {val : ℕ → Byte} (hw : Written f.ip (f.inum s) val f.off.toNat n s s')
    (hi : f.inum s < s.sb.ninodes.toNat) (hlh : s.lh = []) : s'.lh.length = f.logCount n s := by
  set block := fun a => BitVec.ofNat 32 (s'.addr (f.inum s, a)) with hblock
  have hsb : s'.sb = s.sb := by rw [hw.rest]
  have hm := hw.wf.mounted
  have hdata {a : ℕ} (ha : s'.addr (f.inum s, a) ≠ 0) :
      s.sb.bmapstart ≠ block a ∧ s.sb.iblock (f.inum s) ≠ block a := by
    obtain ⟨hlo, hhi⟩ := hw.wf.owns.owned.range _ ha
    rw [← hsb]
    exact ⟨(ofNat_ne_of_lt hm.layout hlo hhi s'.sb.bmapstart_lt).symm,
      hw.wf.owns.iblock_ne_addr hm ha (hsb ▸ hi)⟩
  have hspan {bn : ℕ} (hbn : bn ∈ span f.off.toNat n) : s'.addr (f.inum s, blockSlot bn) ≠ 0 :=
    hw.full _ (Finset.mem_biUnion.mpr ⟨bn, hbn, blockSlot_mem_needed bn⟩)
  have hind (h : f.Misses n NDIRECT s) : s'.addr (f.inum s, NDIRECT) ≠ 0 := by
    obtain ⟨b, hb, hle, -⟩ := h
    exact addr_indirect_ne hle (hw.full b hb)
  have hset : s'.lh.toFinset =
      insertIf ((s.inode (f.inum s)).size.toNat < f.off.toNat + n) (s.sb.iblock (f.inum s))
        (insertIf (f.Misses n 0 s) s.sb.bmapstart (insertIf (f.Misses n NDIRECT s) (block NDIRECT)
          ((span f.off.toNat n).image (block ∘ blockSlot)))) := by
    ext c
    rw [List.mem_toFinset, hw.lh, InLog, hlh]
    simp only [mem_insertIf, Finset.mem_image, List.not_mem_nil, false_or, comp_apply, hblock,
      eq_comm (b := c)]
    exact or_comm
  rw [hm.length_lh, hset, card_insertIf, card_insertIf, card_insertIf, Finset.card_image_of_injOn,
    File.logCount]
  · intro b hb c hc heq
    exact blockSlot_inj (congrArg Prod.snd (hw.wf.owns.addr_inj hm (hspan hb) (hspan hc) heq))
  · intro hmiss hmem
    obtain ⟨bn, hbn, heq⟩ := Finset.mem_image.mp hmem
    exact blockSlot_ne bn
      (congrArg Prod.snd (hw.wf.owns.addr_inj hm (hspan hbn) (hind hmiss) heq))
  · intro _ hmem
    rcases mem_insertIf.mp hmem with ⟨heq, hmiss⟩ | hmem
    · exact (hdata (hind hmiss)).1 heq
    · obtain ⟨bn, hbn, heq⟩ := Finset.mem_image.mp hmem
      exact (hdata (hspan hbn)).1 heq.symm
  · intro _ hmem
    rcases mem_insertIf.mp hmem with ⟨heq, -⟩ | hmem
    · have hl := hm.layout
      rw [hsb] at hl
      exact hl.iblock_ne_bmapstart hi heq
    rcases mem_insertIf.mp hmem with ⟨heq, hmiss⟩ | hmem
    · exact (hdata (hind hmiss)).2 heq
    · obtain ⟨bn, hbn, heq⟩ := Finset.mem_image.mp hmem
      exact (hdata (hspan hbn)).2 heq.symm

def State.begin (s : State) : State := { s with outstanding := 1 }

def State.commit (s : State) : State :=
  { s with outstanding := 0, lh := [], committed := s.committed ++ [s.lh] }

theorem beginOp_run (hout : s.outstanding = 0) (hlh : s.lh = []) :
    beginOp.run s = .ok () s.begin := by
  rw [beginOp, get_bind, if_neg (by rw [hlh, hout]; decide), hout]
  rfl

theorem endOp_run (hout : s.outstanding = 1) : endOp.run s = .ok () s.commit := by
  rw [endOp, get_bind, if_pos hout]
  rfl

theorem Dinode.IsFile.ne_zero {d : Dinode} (h : d.IsFile) : d.type ≠ 0 := by
  intro h0
  rw [Dinode.IsFile, h0] at h
  exact absurd h (by decide)

theorem Resting.begin (h : Resting s) : WellFormed s.begin :=
  h.wf.congr rfl rfl rfl (h.lh.symm ▸ List.nodup_nil)

theorem WellFormed.commit (h : WellFormed s) : Resting s.commit :=
  ⟨h.congr rfl rfl rfl List.nodup_nil, rfl, rfl⟩

/-- The state in which `writei` runs. -/
def State.locked (s : State) (ip : Fin NINODE) : State := s.begin.lock ip

theorem File.Ready.view (h : f.Ready s) : SameView s.begin (s.locked f.ip) :=
  sameView_lock h.resting.begin.mounted h.ref

theorem File.Ready.missing (h : f.Ready s) (A : Finset ℕ) :
    missing (s.locked f.ip) (f.inum s) A ≤ (s.locked f.ip).free ↔
      missing s (f.inum s) A ≤ s.free := by
  have hfree : (s.locked f.ip).free = s.begin.free := free_congr rfl fun b _ => h.view.bit b
  simp only [hfree, FileSys.missing, h.view.addr]
  rfl

theorem File.inum_locked : f.inum (s.locked f.ip) = f.inum s := by
  rw [File.inum, State.locked, State.lock, icache_putInode_self]
  rfl

theorem File.Ready.logCount (h : f.Ready s) : f.logCount n (s.locked f.ip) = f.logCount n s := by
  simp only [File.logCount, File.Misses, File.inum_locked, h.view.addr, h.view.inode]
  rfl

/-- What `writei` leaves to `end_op`. -/
structure Logged (f : File) (n : ℕ) (s : State) (r : Option ℕ) (s' : State) : Prop where
  wf : WellFormed s'
  rest : SameRest (s.locked f.ip) s'
  icache : ∃ d, s'.icache f.ip = { (s.locked f.ip).icache f.ip with copy := d }
  type : (s'.inode (f.inum s)).type = (s.inode (f.inum s)).type
  length : s'.lh.length = if f.Accepts n s then f.logCount n s else 0
  blocks : f.Accepts n s → missing s (f.inum s) (f.slots n) ≤ s.free
  result : r = if f.Accepts n s then some n else none

theorem writei_logged_ends (h : f.Ready s) (hn : n < 2 ^ 32) :
    Ends (writei f.ip src f.off (BitVec.ofNat 32 n)) (s.locked f.ip) (Logged f n s) fun e _ =>
      f.Accepts n s ∧ Lacks (s.locked f.ip) (f.inum s) (f.slots n) e := by
  have hwf := h.view.wellFormed h.resting.begin
  have hip : (s.locked f.ip).Holds f.ip (f.inum s) := holds_putInode_self.mpr ⟨h.ref, rfl, rfl⟩
  have hinode : (s.locked f.ip).inode (f.inum s) = s.inode (f.inum s) := h.view.inode _
  have hfile : ((s.locked f.ip).inode (f.inum s)).IsFile := hinode.symm ▸ h.isFile
  have hnat : (BitVec.ofNat 32 n).toNat = n := Nat.mod_eq_of_lt hn
  by_cases hacc : f.Accepts n s
  · have hoff : f.off.toNat ≤ ((s.locked f.ip).inode (f.inum s)).size.toNat := hinode ▸ hacc.1
    refine (writei_ends hwf hip hfile le_rfl hoff (hnat.symm ▸ hacc.2)).mono ?_ ?_
    · rw [hnat]
      rintro r s' ⟨rfl, hw⟩
      obtain ⟨addrs, hcache⟩ := hw.icache
      obtain ⟨addrs', hself⟩ := hw.inode_self hwf.mounted hip
      refine ⟨hw.wf, sameRest_of_eq hw.rest, ⟨_, by rw [hcache, update_self]⟩, ?_, ?_,
        fun _ => (h.missing _).mp hw.blocks, (if_pos hacc).symm⟩
      · rw [hself, hinode]
      · have hi : f.inum s < s.sb.ninodes.toNat := (h.resting.wf.mounted.range f.ip h.ref).2
        rw [← File.inum_locked] at hw hi
        rw [if_pos hacc, ← h.logCount]
        exact hw.length_lh hi h.resting.lh
    · rw [hnat]
      exact fun _ _ hE => ⟨hacc, hE⟩
  · refine ends_of_ok (writei_rejects hwf hip hfile ?_) ⟨hwf, .refl _, ⟨_, rfl⟩, congrArg _ hinode,
      ?_, fun h => absurd h hacc, (if_neg hacc).symm⟩
    · rw [hinode, hnat]
      simpa only [File.Accepts, not_and_or, Nat.not_le] using hacc
    · rw [if_neg hacc, show (s.locked f.ip).lh = s.lh from rfl, h.resting.lh]
      rfl

/-- What a piece of `n` bytes leaves. -/
structure Chunk (f : File) (n : ℕ) (s : State) (p : Option ℕ × File) (s' : State) : Prop where
  ready : p.2.Ready s'
  committed : ∃ tx, s'.committed = s.committed ++ [tx] ∧ tx.Nodup ∧
    tx.length = if f.Accepts n s then f.logCount n s else 0
  blocks : f.Accepts n s → missing s (f.inum s) (f.slots n) ≤ s.free
  result : p.1 = if f.Accepts n s then some n else none

theorem filewriteChunk_ends (src : ℕ → Byte) (h : f.Ready s) (hn : n < 2 ^ 32) :
    Ends (filewriteChunk f src n) s (Chunk f n s) fun e _ =>
      f.Accepts n s ∧ Lacks (s.locked f.ip) (f.inum s) (f.slots n) e := by
  refine Ends.bind_of_eq (beginOp_run h.resting.outstanding h.resting.lh) ?_
  refine Ends.bind_of_eq (ilock_run h.resting.begin.mounted h.ref h.busy h.isFile.ne_zero) ?_
  refine (writei_logged_ends h hn).bind ?_
  intro r s₁ hlog
  obtain ⟨d, hcache⟩ := hlog.icache
  rw [State.locked, State.lock, icache_putInode_self] at hcache
  have hrun : (iunlock f.ip).run s₁ = .ok () (s₁.unlock f.ip) :=
    iunlock_run (by rw [hcache]; exact h.ref) (by rw [hcache])
  have hview : SameView s₁ (s₁.unlock f.ip) := sameView_unlock hlog.wf.mounted
  have hout : (s₁.unlock f.ip).outstanding = 1 := hlog.rest.outstanding
  refine Ends.bind_of_eq hrun (Ends.bind_of_eq (endOp_run hout) (ends_pure ?_))
  have hself : ((s₁.unlock f.ip).commit.icache f.ip) =
      { s.icache f.ip with busy := false, valid := true, copy := d } := by
    show (s₁.unlock f.ip).icache f.ip = _
    rw [State.unlock, icache_putInode_self, hcache]
    rfl
  refine ⟨⟨(hview.wellFormed hlog.wf).commit, ?_, ?_, ?_⟩,
    ⟨s₁.lh, ?_, hlog.wf.mounted.nodup, hlog.length⟩, hlog.blocks, hlog.result⟩
  · rw [hself]
    exact h.ref
  · rw [hself]
  · show ((s₁.unlock f.ip).inode ((s₁.unlock f.ip).commit.icache f.ip).inum).IsFile
    rw [hself, hview.inode]
    show (s₁.inode (f.inum s)).IsFile
    rw [Dinode.IsFile, hlog.type]
    exact h.isFile
  · show s₁.committed ++ [s₁.lh] = _
    rw [hlog.rest.committed]
    rfl

theorem filewriteLoop_ends (h : f.Ready s) (fuel : ℕ) :
    Ends (filewriteLoop src n fuel i f) s (fun _ s' => s.committed <+: s'.committed)
      (fun _ _ => True) := by
  induction fuel generalizing s i f with
  | zero => exact List.prefix_rfl
  | succ fuel ih =>
    rw [filewriteLoop]
    split_ifs with hn
    · exact List.prefix_rfl
    refine (filewriteChunk_ends _ h ((Nat.min_le_right _ _).trans_lt (by decide))).bind_imp
      (fun _ _ _ => trivial) ?_
    rintro ⟨r, f'⟩ s₁ hchunk
    obtain ⟨tx, htx, -⟩ := hchunk.committed
    have hfirst : s.committed <+: s₁.committed := htx ▸ List.prefix_append _ _
    cases r with
    | none => exact hfirst
    | some r =>
      dsimp only
      split_ifs
      · exact ends_throw trivial
      · exact (ih hchunk.ready).mono (fun _ _ hle => hfirst.trans hle) fun _ _ _ => trivial

/-- The write returns, and each of its transactions keeps to what `begin_op` reserves. -/
def FitsReservation (f : File) (src : ℕ → Byte) (n : ℤ) (s : State) : Prop :=
  Returns (filewrite f src n) s fun _ s' => Commits MAXOPBLOCKS s s'

theorem card_span (hn : n ≠ 0) : (span off n).card = (off + n - 1) / BSIZE + 1 - off / BSIZE := by
  rw [span, if_neg hn, Nat.card_Icc]

theorem card_slotsOf_le : (slotsOf off n).card ≤ (span off n).card + 1 := by
  have hsub : slotsOf off n ⊆ insert NDIRECT ((span off n).image blockSlot) := by
    intro a ha
    obtain ⟨bn, hbn, ha⟩ := Finset.mem_biUnion.mp ha
    rcases mem_needed ha with rfl | rfl
    · exact Finset.mem_insert_of_mem (Finset.mem_image_of_mem _ hbn)
    · exact Finset.mem_insert_self _ _
  refine (Finset.card_le_card hsub).trans ((Finset.card_insert_le _ _).trans ?_)
  exact Nat.succ_le_succ Finset.card_image_le

theorem File.Accepts.logCount_zero (h : f.Accepts 0 s) : f.logCount 0 s = 0 := by
  have hnone (lo : ℕ) : ¬ f.Misses 0 lo s := by simp [slotsOf_zero]
  rw [File.logCount, if_neg (hnone _), if_neg (hnone _), Nat.add_zero f.off.toNat,
    if_neg (Nat.not_lt.mpr h.1), span, if_pos rfl]
  rfl

theorem filewriteLoop_done (h : n ≤ i) (fuel : ℕ) : filewriteLoop src n fuel i f = pure (i, f) := by
  cases fuel with
  | zero => rfl
  | succ fuel => rw [filewriteLoop, if_pos h]

theorem fitsReservation_loop {n : ℤ} (hw : ¬ f.writable = false) : FitsReservation f src n s ↔
    Returns (filewriteLoop src n.toNat n.toNat 0 f) s fun _ s' => Commits MAXOPBLOCKS s s' := by
  rw [FitsReservation, filewrite, if_neg hw]
  constructor
  · rintro ⟨p, s', hrun, hcommits⟩
    obtain ⟨q, s₁, hloop, hpure⟩ := bind_eq_ok hrun
    cases hpure
    exact ⟨q, s', hloop, hcommits⟩
  · exact fun h => h.bind fun _ _ hcommits => returns_pure hcommits

/-- The piece that fits is the only one: one with others behind it spans thirteen blocks. -/
theorem min_of_logCount_le (h : f.logCount (min n maxWrite) s ≤ MAXOPBLOCKS) :
    min n maxWrite = n := by
  by_contra hne
  have hmin : min n maxWrite = 6656 := by
    have : maxWrite = 6656 := rfl
    omega
  rw [hmin, File.logCount, card_span (by decide)] at h
  simp only [BSIZE, MAXOPBLOCKS] at h
  omega

theorem File.Ready.room (h : f.Ready s) (hcap : 12 < s.logCap)
    (hblocks : FileSys.missing s (f.inum s) (f.slots n) ≤ s.free)
    (hcount : f.logCount n s ≤ MAXOPBLOCKS) :
    Room (s.locked f.ip) (f.inum s) f.off.toNat n := by
  refine ⟨(h.missing _).mpr hblocks, ?_⟩
  have hspan : (span f.off.toNat n).card ≤ 10 := by
    refine le_trans ?_ hcount
    rw [File.logCount]
    omega
  have hslots : (slotsOf f.off.toNat n).card ≤ (span f.off.toNat n).card + 1 := card_slotsOf_le
  have hlh : (s.locked f.ip).lh.length = 0 := congrArg List.length h.resting.lh
  have hlog : (s.locked f.ip).logCap = s.logCap := rfl
  omega

theorem commits_refl (k : ℕ) (s : State) : Commits k s s := ⟨[], (List.append_nil _).symm, nofun⟩

/-- What the first piece takes, of a loop that writes one at least. -/
theorem fits_of_run (h : f.Ready s) {k : ℕ} {p : ℕ × File}
    (hrun : (filewriteLoop src (n + 1) (n + 1) 0 f).run s = .ok p s') (hc : Commits k s s')
    (hacc : f.Accepts (min (n + 1) maxWrite) s) :
    missing s (f.inum s) (f.slots (min (n + 1) maxWrite)) ≤ s.free ∧
      f.logCount (min (n + 1) maxWrite) s ≤ k := by
  obtain ⟨txs, heq, htxs⟩ := hc
  rw [filewriteLoop, if_neg (by omega), Nat.sub_zero] at hrun
  obtain ⟨⟨r, f₁⟩, s₁, hfirst, hrest⟩ := bind_eq_ok hrun
  have hc := (filewriteChunk_ends (fun j => src (0 + j)) h
    ((Nat.min_le_right _ _).trans_lt (by decide))).of_ok hfirst
  obtain ⟨tx, htx, -, hlen⟩ := hc.committed
  obtain rfl : r = some (min (n + 1) maxWrite) := hc.result.trans (if_pos hacc)
  rw [if_pos hacc] at hlen
  dsimp only at hrest
  rw [if_neg (not_not.mpr rfl)] at hrest
  have hle := (filewriteLoop_ends hc.ready n).of_ok hrest
  rw [htx, heq, List.prefix_append_right_inj] at hle
  exact ⟨hc.blocks hacc, hlen ▸ (htxs tx (hle.subset (List.mem_singleton_self tx))).2⟩

theorem commits_of_fits (h : f.Ready s) (hcap : 12 < s.logCap)
    (hfits : f.Accepts (min (n + 1) maxWrite) s →
      missing s (f.inum s) (f.slots (min (n + 1) maxWrite)) ≤ s.free ∧
        f.logCount (min (n + 1) maxWrite) s ≤ MAXOPBLOCKS) :
    Returns (filewriteLoop src (n + 1) (n + 1) 0 f) s fun _ s' => Commits MAXOPBLOCKS s s' := by
  have hchunk := filewriteChunk_ends (fun j => src (0 + j)) h
    (show min (n + 1) maxWrite < 2 ^ 32 from (Nat.min_le_right _ _).trans_lt (by decide))
  rw [filewriteLoop, if_neg (by omega), Nat.sub_zero]
  have hreturns := hchunk.returns fun e _ ⟨hacc, hlacks⟩ =>
    (h.room hcap (hfits hacc).1 (hfits hacc).2).not_lacks h.view.mounted e hlacks
  refine hreturns.bind ?_
  rintro ⟨r, f₁⟩ s₁ hc
  obtain ⟨tx, htx, hnodup, hlen⟩ := hc.committed
  have hone (hle : tx.length ≤ MAXOPBLOCKS) : Commits MAXOPBLOCKS s s₁ :=
    ⟨[tx], htx, fun tx' htx' => List.mem_singleton.mp htx' ▸ ⟨hnodup, hle⟩⟩
  have hresult := hc.result
  dsimp only at hresult
  by_cases hacc : f.Accepts (min (n + 1) maxWrite) s
  · have hcount := (hfits hacc).2
    rw [if_pos hacc] at hresult hlen
    rw [hresult]
    dsimp only
    rw [if_neg (not_not.mpr rfl), filewriteLoop_done (by rw [min_of_logCount_le hcount]; omega)]
    exact returns_pure (hone (hlen.trans_le hcount))
  · rw [if_neg hacc] at hresult hlen
    rw [hresult]
    exact returns_pure (hone (hlen.trans_le (Nat.zero_le _)))

end Chunk

section Small

def idleState (size : ℕ) : State := { (smallState size).unlock 0 with outstanding := 0 }

def openFile : File := ⟨true, true, 0, 0⟩

variable {size : ℕ}

theorem resting_idle (hlo : 35 ≤ size) (hhi : size ≤ FSSIZE) : Resting (idleState size) := by
  have hview : SameView (smallState size) ((smallState size).unlock 0) :=
    sameView_unlock (mounted_small hlo hhi)
  exact ⟨(hview.wellFormed (wellFormed_small hlo hhi)).congr rfl rfl rfl List.nodup_nil, rfl, rfl⟩

theorem ready_idle (hlo : 35 ≤ size) (hhi : size ≤ FSSIZE) : openFile.Ready (idleState size) := by
  have hview : SameView (smallState size) ((smallState size).unlock 0) :=
    sameView_unlock (mounted_small hlo hhi)
  have hinode : (idleState size).inode 2 = smallFile :=
    (hview.inode 2).trans (inode_small_two hlo hhi)
  refine ⟨resting_idle hlo hhi, Nat.one_pos, rfl, ?_⟩
  show ((idleState size).inode 2).IsFile
  rw [hinode]
  exact .inl rfl

end Small

end Xv6Prng.FileSys
