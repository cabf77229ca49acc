import Xv6Prng.FileBlocks

/-!
# A file is an array of bytes

`readi` and `writei` go through a range of a file block by block. On a well-formed file system
`readi` returns the bytes of the range, and `writei` replaces them, lets the file grow if
necessary and touches no other file, provided that there are free blocks for the missing ones
and that the log can take the transaction. Otherwise the kernel panics.
-/

namespace Xv6Prng.FileSys

open ByteWords Halting Fs BlockMap Function

structure WellFormed (s : State) : Prop where
  mounted : Mounted s
  owns : Owns ∅ s
  noHoles : NoHoles s

def Dinode.IsFile (d : Dinode) : Prop := d.type = T_FILE ∨ d.type = T_DIR

instance (d : Dinode) : Decidable d.IsFile := inferInstanceAs (Decidable (_ ∨ _))

def State.contents (s : State) (i : ℕ) : List Byte :=
  (List.range (s.inode i).size.toNat).map (s.byte i)

def span (off n : ℕ) : Finset ℕ :=
  if n = 0 then ∅ else Finset.Icc (off / BSIZE) ((off + n - 1) / BSIZE)

def slotsOf (off n : ℕ) : Finset ℕ := (span off n).biUnion needed

section Span

variable {off n : ℕ}

theorem mem_span {bn : ℕ} :
    bn ∈ span off n ↔ ∃ k, off ≤ k ∧ k < off + n ∧ k / BSIZE = bn := by
  rw [span]
  split_ifs with hn
  · simp [hn]
    omega
  · rw [Finset.mem_Icc]
    constructor
    · rintro ⟨hlo, hhi⟩
      refine ⟨max off (bn * 512), le_max_left _ _, ?_, ?_⟩
      · simp only [BSIZE] at hlo hhi
        omega
      · simp only [BSIZE] at hlo hhi ⊢
        omega
    · rintro ⟨k, hlo, hhi, rfl⟩
      exact ⟨Nat.div_le_div_right hlo, Nat.div_le_div_right (by omega)⟩

def piece (off n : ℕ) : ℕ := min n (BSIZE - off % BSIZE)

theorem piece_pos (off : ℕ) (hn : n ≠ 0) : 0 < piece off n := by
  simp only [piece, BSIZE]
  omega

theorem piece_le (off n : ℕ) : piece off n ≤ n := Nat.min_le_left _ _

theorem div_of_lt_piece {k : ℕ} (hlo : off ≤ k) (hhi : k < off + piece off n) :
    k / BSIZE = off / BSIZE ∧ k % BSIZE = off % BSIZE + (k - off) := by
  simp only [piece, BSIZE] at hhi ⊢
  omega

theorem div_of_mem_piece {k : ℕ} (hdiv : k / BSIZE = off / BSIZE) :
    (off % BSIZE ≤ k % BSIZE ∧ k % BSIZE < off % BSIZE + piece off n) ↔
      off ≤ k ∧ k < off + piece off n := by
  simp only [piece, BSIZE] at hdiv ⊢
  omega

theorem slotsOf_zero : slotsOf off 0 = ∅ := by
  rw [slotsOf, span, if_pos rfl, Finset.biUnion_empty]

theorem span_piece (hn : n ≠ 0) :
    span off n = insert (off / BSIZE) (span (off + piece off n) (n - piece off n)) := by
  have hpos := piece_pos off hn
  have hle := piece_le off n
  ext bn
  rw [Finset.mem_insert, mem_span, mem_span]
  constructor
  · rintro ⟨k, hlo, hhi, rfl⟩
    by_cases hk : k < off + piece off n
    · exact .inl (div_of_lt_piece hlo hk).1
    · exact .inr ⟨k, by omega, by omega, rfl⟩
  · rintro (rfl | ⟨k, hlo, hhi, rfl⟩)
    · exact ⟨off, le_rfl, by omega, rfl⟩
    · exact ⟨k, by omega, by omega, rfl⟩

theorem slotsOf_piece (hn : n ≠ 0) :
    slotsOf off n = needed (off / BSIZE) ∪ slotsOf (off + piece off n) (n - piece off n) := by
  rw [slotsOf, span_piece hn, Finset.biUnion_insert, slotsOf]

theorem blockSlot_mem_slotsOf {k : ℕ} (hlo : off ≤ k) (hhi : k < off + n) :
    blockSlot (k / BSIZE) ∈ slotsOf off n :=
  Finset.mem_biUnion.mpr ⟨_, mem_span.mpr ⟨k, hlo, hhi, rfl⟩, blockSlot_mem_needed _⟩

end Span

section Read

variable {s : State} {ip : Fin NINODE} {i : ℕ}

theorem readLoop_run (hm : Mounted s) (ho : Owns ∅ s) (hip : s.Holds ip i) {fuel off n : ℕ}
    (hfuel : n ≤ fuel) (hmax : off + n ≤ MAXFILE * BSIZE)
    (hfull : ∀ k, off ≤ k → k < off + n → s.addr (i, blockSlot (k / BSIZE)) ≠ 0) :
    (readLoop ip fuel off n).run s = .ok ((List.range n).map fun j => s.byte i (off + j)) s := by
  induction fuel generalizing off n with
  | zero =>
    obtain rfl : n = 0 := Nat.le_zero.mp hfuel
    rfl
  | succ fuel ih =>
    rw [readLoop]
    by_cases hn : n = 0
    · rw [if_pos hn, hn]
      rfl
    rw [if_neg hn]
    have hpos := piece_pos off hn
    have hle := piece_le off n
    have haddr := hfull off le_rfl (by omega)
    have hbn : off / BSIZE < MAXFILE := by
      simp only [MAXFILE, BSIZE] at hmax ⊢
      omega
    have hread : (BitVec.ofNat 32 (s.addr (i, blockSlot (off / BSIZE)))).toNat < FSSIZE := by
      rw [ho.toNat_addr hm haddr]
      exact (ho.owned.range _ haddr).2.trans_le hm.layout.disk
    rw [bind_ok (bmap_run hm ho hip hbn haddr), bind_ok (bread_run hread)]
    have hrest := @ih (off + piece off n) (n - piece off n) (by omega) (by omega)
      fun k hlo hhi => hfull k (by omega) (by omega)
    rw [show min n (BSIZE - off % BSIZE) = piece off n from rfl, bind_ok hrest]
    have hsplit : n = piece off n + (n - piece off n) := by omega
    conv_rhs => rw [hsplit, List.range_add, List.map_append, List.map_map]
    refine congrArg (EStateM.Result.ok · s) (congrArg₂ _ (List.map_congr_left fun j hj => ?_) ?_)
    · obtain ⟨hdiv, hmod⟩ := div_of_lt_piece (n := n) (Nat.le_add_right off j)
        (Nat.add_lt_add_left (List.mem_range.mp hj) off)
      rw [State.byte, hdiv, hmod, Nat.add_sub_cancel_left]
    · exact List.map_congr_left fun j _ => by rw [Function.comp_apply, Nat.add_assoc]

def readBytes (c : List Byte) (off n : ℕ) : Option (List Byte) :=
  if c.length < off ∨ 2 ^ 32 ≤ off + n then none else some ((c.drop off).take n)

theorem length_contents : (s.contents i).length = (s.inode i).size.toNat := by
  rw [State.contents, List.length_map, List.length_range]

theorem take_drop_map_range (f : ℕ → Byte) (size off n : ℕ) :
    (((List.range size).map f).drop off).take n =
      (List.range (min n (size - off))).map fun j => f (off + j) := by
  apply List.ext_getElem
  · simp
  · intro j h₁ h₂
    simp

theorem WellFormed.addr_ne_zero (h : WellFormed s) (hlive : s.Live i) (hfile : (s.inode i).IsFile)
    {k : ℕ} (hk : k < (s.inode i).size.toNat) : s.addr (i, blockSlot (k / BSIZE)) ≠ 0 :=
  h.noHoles i hlive hfile _ ((Nat.div_mul_le_self k BSIZE).trans_lt hk)

theorem lt_MAXFILE_of_addr {bn : ℕ} (h : s.addr (i, blockSlot bn) ≠ 0) : bn < MAXFILE := by
  by_contra hge
  refine h ((addr_eq_zero_iff (live_of_addr h) _).mpr (slot_of_gt ?_))
  simp only [MAXFILE, NDIRECT, NINDIRECT, blockSlot] at hge ⊢
  split_ifs <;> omega

theorem WellFormed.size_le (h : WellFormed s) (hlive : s.Live i) (hfile : (s.inode i).IsFile) :
    (s.inode i).size.toNat ≤ MAXFILE * BSIZE := by
  by_contra hgt
  have hlt := lt_MAXFILE_of_addr
    (h.addr_ne_zero hlive hfile (k := (s.inode i).size.toNat - 1) (by omega))
  simp only [MAXFILE, BSIZE] at hgt hlt
  omega

theorem toNat_add_lt_iff (off n : Word) : off + n < off ↔ 2 ^ 32 ≤ off.toNat + n.toNat := by
  rw [BitVec.lt_def, BitVec.toNat_add]
  have hoff := off.isLt
  have hn := n.isLt
  omega

theorem IsFile.ne_dev {d : Dinode} (h : d.IsFile) : d.type ≠ T_DEV := by
  rcases h with h | h <;> rw [h] <;> decide

theorem State.Holds.live (h : Mounted s) (hip : s.Holds ip i) (hfile : (s.inode i).IsFile) :
    s.Live i := by
  obtain ⟨hlo, hhi⟩ := hip.2.2 ▸ h.range ip hip.1
  refine ⟨hlo, hhi, ?_⟩
  rcases hfile with h | h <;> rw [h] <;> decide

theorem readi_run (h : WellFormed s) (hip : s.Holds ip i) (hfile : (s.inode i).IsFile)
    (off n : Word) :
    (readi ip off n).run s = .ok (readBytes (s.contents i) off.toNat n.toNat) s := by
  have hlive := hip.live h.mounted hfile
  have hsize := h.size_le hlive hfile
  have hinode := inode_of_holds h.mounted hip
  rw [readBytes, length_contents, readi, get_bind, ← hinode, if_neg (IsFile.ne_dev hfile)]
  have hguard : (off > (s.inode i).size ∨ off + n < off) ↔
      (s.inode i).size.toNat < off.toNat ∨ 2 ^ 32 ≤ off.toNat + n.toNat := by
    rw [toNat_add_lt_iff, gt_iff_lt, BitVec.lt_def]
  by_cases hbad : (s.inode i).size.toNat < off.toNat ∨ 2 ^ 32 ≤ off.toNat + n.toNat
  · rw [if_pos (hguard.mpr hbad), if_pos hbad]
    rfl
  rw [if_neg (mt hguard.mp hbad), if_neg hbad]
  push Not at hbad
  have hn : (if off + n > (s.inode i).size then (s.inode i).size - off else n).toNat =
      min n.toNat ((s.inode i).size.toNat - off.toNat) := by
    have hsum : (off + n).toNat = off.toNat + n.toNat := by
      rw [BitVec.toNat_add, Nat.mod_eq_of_lt hbad.2]
    split_ifs with hshort
    · rw [gt_iff_lt, BitVec.lt_def, hsum] at hshort
      rw [BitVec.toNat_sub_of_le (BitVec.le_def.mpr hbad.1)]
      omega
    · rw [gt_iff_lt, BitVec.lt_def, hsum] at hshort
      omega
  dsimp only
  rw [hn, bind_ok (readLoop_run h.mounted h.owns hip le_rfl (by omega)
    fun k hlo hhi => h.addr_ne_zero hlive hfile (by omega))]
  rw [State.contents, take_drop_map_range]
  rfl

theorem readi_inside_run (hm : Mounted s) (ho : Owns ∅ s) (hip : s.Holds ip i)
    (hfile : (s.inode i).IsFile) (off n : Word)
    (hsize : off.toNat + n.toNat ≤ (s.inode i).size.toNat)
    (hmax : off.toNat + n.toNat ≤ MAXFILE * BSIZE)
    (hfull : ∀ k, off.toNat ≤ k → k < off.toNat + n.toNat → s.addr (i, blockSlot (k / BSIZE)) ≠ 0) :
    (readi ip off n).run s =
      .ok (some ((List.range n.toNat).map fun j => s.byte i (off.toNat + j))) s := by
  have hmax' : off.toNat + n.toNat ≤ 71680 := hmax
  have hsum : (off + n).toNat = off.toNat + n.toNat := by
    rw [BitVec.toNat_add]
    omega
  rw [readi, get_bind, ← inode_of_holds hm hip, if_neg (IsFile.ne_dev hfile), if_neg]
  · dsimp only
    have hshort : ¬ off + n > (s.inode i).size := by
      rw [gt_iff_lt, BitVec.lt_def, hsum]
      exact Nat.not_lt.mpr hsize
    rw [if_neg hshort, bind_ok (readLoop_run hm ho hip le_rfl hmax hfull)]
    rfl
  · rw [toNat_add_lt_iff, gt_iff_lt, BitVec.lt_def]
    omega

end Read

structure Wrote (i : ℕ) (val : ℕ → Byte) (lo hi : ℕ) (s s' : State) : Prop where
  old : ∀ j k, s.addr (j, blockSlot (k / BSIZE)) ≠ 0 →
    s'.byte j k = if j = i ∧ lo ≤ k ∧ k < hi then val k else s.byte j k
  new : ∀ k, lo ≤ k → k < hi → s'.byte i k = val k
  logged : ∀ k, lo ≤ k → k < hi → BitVec.ofNat 32 (s'.addr (i, blockSlot (k / BSIZE))) ∈ s'.lh

variable {y : ℕ × ℕ} {src : ℕ → Byte}

section Write

variable {s s' s'' : State} {ip : Fin NINODE} {i : ℕ} {val : ℕ → Byte} {lo mid hi : ℕ}
  {A B : Finset ℕ}

theorem Wrote.trans (hg : Grown ip i A s s') (hg' : Grown ip i B s' s'') (hlo : lo ≤ mid)
    (hhi : mid ≤ hi)
    (hA : ∀ k, lo ≤ k → k < mid → blockSlot (k / BSIZE) ∈ A) (h : Wrote i val lo mid s s')
    (h' : Wrote i val mid hi s' s'') : Wrote i val lo hi s s'' where
  old j k hk := by
    rw [h'.old j k (by rwa [hg.old _ hk]), h.old j k hk]
    by_cases hj : j = i
    · simp only [hj, true_and]
      split_ifs <;> first | rfl | omega
    · simp [hj]
  new k hk hk' := by
    by_cases hkm : k < mid
    · rw [h'.old i k (hg.full _ (hA k hk hkm)), if_neg (by omega)]
      exact h.new k hk hkm
    · exact h'.new k (by omega) hk'
  logged k hk hk' := by
    by_cases hkm : k < mid
    · rw [hg'.old _ (hg.full _ (hA k hk hkm))]
      exact hg'.logs _ (.inl (h.logged k hk hkm))
    · exact h'.logged k (by omega) hk'

theorem addr_log_data (hm : Mounted s) (ho : Owns ∅ s) (hy : s.addr y ≠ 0) (hy12 : y.2 ≠ NDIRECT)
    (data : DiskBlock) (x : ℕ × ℕ) : (s.log (BitVec.ofNat 32 (s.addr y)) data).addr x = s.addr x :=
  addr_log (fun _ hj => ho.iblock_ne_addr hm hy hj)
    (fun _ hj heq => hy12 (congrArg Prod.snd (ho.addr_inj hm hj hy heq)).symm) x

theorem bit_log_data (hm : Mounted s) (ho : Owns ∅ s) (hy : s.addr y ≠ 0) (data : DiskBlock) {b : ℕ}
    (hb : b < s.sb.size.toNat) : (s.log (BitVec.ofNat 32 (s.addr y)) data).bit b = s.bit b := by
  obtain ⟨hlo, hhi⟩ := ho.owned.range y hy
  refine bit_log ?_
  rw [hm.layout.bblock_eq hb]
  exact (ofNat_ne_of_lt hm.layout hlo hhi s.sb.bmapstart_lt).symm

theorem Owns.log_data (hm : Mounted s) (ho : Owns ∅ s) (hy : s.addr y ≠ 0) (hy12 : y.2 ≠ NDIRECT)
    (data : DiskBlock) : Owns ∅ (s.log (BitVec.ofNat 32 (s.addr y)) data) :=
  ⟨ho.owned.congr (addr_log_data hm ho hy hy12 data) fun _ _ hb => by
      rw [bit_log_data hm ho hy data hb],
    fun b hb => by
      rw [bit_log_data hm ho hy data (lt_of_lt_of_le hb hm.layout.data)]
      exact ho.meta_used b hb⟩

theorem Mounted.log_data (hm : Mounted s) (ho : Owns ∅ s) (hy : s.addr y ≠ 0) (data : DiskBlock) :
    Mounted (s.log (BitVec.ofNat 32 (s.addr y)) data) := by
  obtain ⟨hlo, hhi⟩ := ho.owned.range y hy
  exact hm.log
    (ofNat_ne_of_lt hm.layout hlo hhi (hm.layout.one_lt_bmapstart.trans s.sb.bmapstart_lt))

theorem grown_log_data (ip : Fin NINODE) (hm : Mounted s) (ho : Owns ∅ s)
    (hA : ∀ a ∈ A, s.addr (i, a) ≠ 0) {a : ℕ} (ha : a ∈ A) (ha12 : a ≠ NDIRECT) (data : DiskBlock) :
    Grown ip i A s (s.log (BitVec.ofNat 32 (s.addr (i, a))) data) := by
  have haddr := addr_log_data hm ho (y := (i, a)) (hA a ha) ha12 data
  exact
    { mounted := hm.log_data ho (hA a ha) data
      owns := ho.log_data hm (y := (i, a)) (hA a ha) ha12 data
      rest := rfl
      icache := ⟨(s.icache ip).copy.addrs, (update_eq_self ip s.icache).symm⟩
      dinode := fun j hj => dinode_log (ho.iblock_ne_addr hm (hA a ha) hj)
      old := fun k _ => haddr k
      new := fun k hk hk' => by
        rw [haddr] at hk'
        exact absurd hk hk'
      full := fun b hb => by
        rw [haddr]
        exact hA b hb
      free := fun B _ => by
        have hfree : (s.log (BitVec.ofNat 32 (s.addr (i, a))) data).free = s.free :=
          free_congr sb_log fun b hb => bit_log_data hm ho (hA a ha) data hb
        simp only [hfree, missing, haddr]
      lh := fun c hc => by
        rcases mem_lh_log.mp hc with rfl | hc
        · exact .inr (.inr ⟨a, ha, by rw [haddr], fun h => absurd h ha12⟩)
        · exact .inl hc
      logs := fun c hc => by
        have hnone (lo : ℕ) : ¬ Misses s i A lo := by
          rintro ⟨b, hb, -, h0⟩
          exact hA b hb h0
        simp only [hnone, and_false, or_false] at hc
        exact mem_lh_log.mpr (.inr hc) }

theorem mem_needed {a bn : ℕ} : a ∈ needed bn → a = blockSlot bn ∨ a = NDIRECT := by
  rw [blockSlot, needed]
  split_ifs <;> simp only [Finset.mem_singleton, Finset.mem_insert] <;> tauto

theorem blockSlot_inj {b c : ℕ} (h : blockSlot b = blockSlot c) : b = c := by
  simp only [blockSlot] at h
  split_ifs at h <;> omega

theorem wrote_log_data (val : ℕ → Byte) {off : ℕ} (n : ℕ) (hm : Mounted s) (ho : Owns ∅ s)
    (hx : s.addr (i, blockSlot (off / BSIZE)) ≠ 0) :
    Wrote i val off (off + piece off n) s
      (s.log (BitVec.ofNat 32 (s.addr (i, blockSlot (off / BSIZE))))
        (storeBytes (s.disk (BitVec.ofNat 32 (s.addr (i, blockSlot (off / BSIZE))))) (off % BSIZE)
          (piece off n) fun j => val (off + j))) := by
  set x := BitVec.ofNat 32 (s.addr (i, blockSlot (off / BSIZE))) with hxdef
  set data := storeBytes (s.disk x) (off % BSIZE) (piece off n) fun j => val (off + j)
  have haddr := addr_log_data hm ho hx (blockSlot_ne _) data
  have hold (j k : ℕ) (hk : s.addr (j, blockSlot (k / BSIZE)) ≠ 0) :
      (s.log x data).byte j k =
        if j = i ∧ off ≤ k ∧ k < off + piece off n then val k else s.byte j k := by
    rw [State.byte, State.byte, haddr]
    by_cases hsame : j = i ∧ k / BSIZE = off / BSIZE
    · obtain ⟨rfl, hdiv⟩ := hsame
      have hmod : k % BSIZE < 512 := Nat.mod_lt _ (by decide)
      rw [hdiv, ← hxdef, disk_log, update_self, byteAt_storeBytes _ _ _ _ hmod]
      simp only [div_of_mem_piece hdiv, true_and]
      split_ifs with hin
      · rw [(div_of_lt_piece hin.1 hin.2).2, Nat.add_sub_cancel_left, Nat.add_sub_cancel' hin.1]
      · rfl
    · have hne : BitVec.ofNat 32 (s.addr (j, blockSlot (k / BSIZE))) ≠ x := fun heq => by
        obtain ⟨hj, hslot⟩ := Prod.mk.inj (ho.addr_inj hm hk hx heq)
        exact hsame ⟨hj, blockSlot_inj hslot⟩
      rw [disk_log, update_of_ne hne, if_neg]
      rintro ⟨hj, hlo, hhi⟩
      exact hsame ⟨hj, (div_of_lt_piece hlo hhi).1⟩
  refine ⟨hold, fun k hlo hhi => ?_, fun k hlo hhi => ?_⟩
  · have hk : s.addr (i, blockSlot (k / BSIZE)) ≠ 0 := by rwa [(div_of_lt_piece hlo hhi).1]
    rw [hold i k hk, if_pos ⟨rfl, hlo, hhi⟩]
  · rw [haddr, (div_of_lt_piece hlo hhi).1]
    exact mem_lh_log.mpr (.inl rfl)

theorem KeepsBytes.wrote {hi : ℕ} (hg : Grown ip i A s s') (hb : KeepsBytes s s')
    (h : Wrote i val lo hi s' s'') : Wrote i val lo hi s s'' where
  old j k hk := by rw [h.old j k (by rwa [hg.old _ hk]), hb j k hk]
  new := h.new
  logged := h.logged

theorem lacks_of_full (hm : Mounted s) {e : Halt}
    (h : e = .panic "too big a transaction" ∧ s.logCap ≤ s.lh.length) : Lacks s i A e := by
  obtain ⟨rfl, hcap⟩ := h
  refine .log (fun a => BitVec.ofNat 32 (s.addr (i, a))) (fun _ _ => rfl) (hcap.trans ?_)
  rw [hm.length_lh]
  exact Finset.card_le_card (Finset.subset_union_left.trans (Finset.subset_insert _ _))

theorem wrote_nothing (hm : Mounted s) (ho : Owns ∅ s) {off : ℕ} :
    Grown ip i (slotsOf off 0) s s ∧ Wrote i val off (off + 0) s s := by
  rw [slotsOf_zero]
  refine ⟨.refl hm ho (by simp), fun j k _ => ?_, fun k hlo hhi => ?_, fun k hlo hhi => ?_⟩
  · rw [if_neg (by omega)]
  · omega
  · omega

theorem writeLoop_ends (val : ℕ → Byte) (hm : Mounted s) (ho : Owns ∅ s) (hip : s.Holds ip i)
    (hlive : s.Live i) (hout : 1 ≤ s.outstanding) {fuel tot off n : ℕ} (hfuel : n ≤ fuel)
    (hmax : off + n ≤ MAXFILE * BSIZE) (hsrc : ∀ j, src (tot + j) = val (off + j)) :
    Ends (writeLoop ip src fuel tot off n) s
      (fun _ s' => Grown ip i (slotsOf off n) s s' ∧ Wrote i val off (off + n) s s')
      (fun e _ => Lacks s i (slotsOf off n) e) := by
  induction fuel generalizing s tot off n with
  | zero =>
    obtain rfl : n = 0 := Nat.le_zero.mp hfuel
    exact wrote_nothing hm ho
  | succ fuel ih =>
    rw [writeLoop]
    by_cases hn : n = 0
    · rw [if_pos hn, hn]
      exact wrote_nothing hm ho
    rw [if_neg hn, slotsOf_piece hn]
    have hpos := piece_pos off hn
    have hle := piece_le off n
    have hbn : off / BSIZE < MAXFILE := by
      simp only [MAXFILE, BSIZE] at hmax ⊢
      omega
    refine (bmap_ends hm ho hip hlive hout hbn).bind_imp
      (fun e _ hE => hE.mono Finset.subset_union_left) ?_
    rintro _ s₁ ⟨hgrown, hbytes, rfl⟩
    have hx := hgrown.full _ (blockSlot_mem_needed (off / BSIZE))
    have hread : (BitVec.ofNat 32 (s₁.addr (i, blockSlot (off / BSIZE)))).toNat < FSSIZE := by
      rw [hgrown.owns.toNat_addr hgrown.mounted hx]
      exact (hgrown.owns.owned.range _ hx).2.trans_le hgrown.mounted.layout.disk
    refine Ends.bind_of_eq (bread_run hread) ?_
    rw [show min n (BSIZE - off % BSIZE) = piece off n from rfl, funext hsrc]
    -- the block is logged with the new bytes
    refine (logWrite_ends (hgrown.outstanding.symm ▸ hout)).bind_imp (fun e _ hE => ?_) ?_
    · exact (hgrown.lacks le_rfl (lacks_of_full hgrown.mounted hE)).mono Finset.subset_union_left
    rintro _ s₂ rfl
    have hgrown₂ := grown_log_data ip hgrown.mounted hgrown.owns hgrown.full
      (blockSlot_mem_needed _) (blockSlot_ne _)
      (storeBytes (s₁.disk (BitVec.ofNat 32 (s₁.addr (i, blockSlot (off / BSIZE))))) (off % BSIZE)
        (piece off n) fun j => val (off + j))
    have hwrote := hbytes.wrote hgrown
      (wrote_log_data val n hgrown.mounted hgrown.owns hx)
    have htrans := hgrown.trans hgrown₂
    rw [Finset.union_idempotent] at htrans
    refine (ih htrans.mounted htrans.owns (htrans.holds.mpr hip) (htrans.live hm hip hlive)
      (htrans.outstanding.symm ▸ hout) (by omega) (by omega) (fun j => ?_)).mono ?_ ?_
    · rw [Nat.add_assoc, hsrc, Nat.add_assoc]
    · rintro _ s₃ ⟨hgrown₃, hwrote₃⟩
      refine ⟨htrans.trans hgrown₃, ?_⟩
      have hend : off + piece off n + (n - piece off n) = off + n := by omega
      rw [hend] at hwrote₃
      refine hwrote.trans htrans hgrown₃ (by omega) (by omega) (fun k hlo hhi => ?_) hwrote₃
      rw [(div_of_lt_piece hlo hhi).1]
      exact blockSlot_mem_needed _
    · exact fun e _ hE => htrans.lacks Finset.subset_union_left (hE.mono Finset.subset_union_right)

/-- The blocks in the log after a write of `n` bytes, apart from that of the inode. -/
def InLog (s s' : State) (i off n : ℕ) (c : Word) : Prop :=
  c ∈ s.lh ∨ c = s.sb.bmapstart ∧ Misses s i (slotsOf off n) 0 ∨
    c = BitVec.ofNat 32 (s'.addr (i, NDIRECT)) ∧ Misses s i (slotsOf off n) NDIRECT ∨
    ∃ bn ∈ span off n, c = BitVec.ofNat 32 (s'.addr (i, blockSlot bn))

theorem Grown.mem_lh {off n : ℕ} (hg : Grown ip i (slotsOf off n) s s')
    (hw : Wrote i val off (off + n) s s') (c : Word) : c ∈ s'.lh ↔ InLog s s' i off n c := by
  constructor
  · intro hc
    rcases hg.lh c hc with hc | hc | ⟨a, ha, rfl, hmiss⟩
    · exact .inl hc
    · exact .inr (.inl hc)
    · obtain ⟨bn, hbn, ha⟩ := Finset.mem_biUnion.mp ha
      rcases mem_needed ha with rfl | rfl
      · exact .inr (.inr (.inr ⟨bn, hbn, rfl⟩))
      · exact .inr (.inr (.inl ⟨rfl, hmiss rfl⟩))
  · rintro (hc | hc | hc | ⟨bn, hbn, rfl⟩)
    · exact hg.logs c (.inl hc)
    · exact hg.logs c (.inr (.inl hc))
    · exact hg.logs c (.inr (.inr hc))
    · obtain ⟨k, hlo, hhi, rfl⟩ := mem_span.mp hbn
      exact hw.logged k hlo hhi

structure Written (ip : Fin NINODE) (i : ℕ) (val : ℕ → Byte) (off n : ℕ) (s s' : State) : Prop where
  wf : WellFormed s'
  rest : s' = { s with disk := s'.disk, icache := s'.icache, lh := s'.lh }
  icache : ∃ addrs, s'.icache = Function.update s.icache ip { s.icache ip with
    copy := { (s.icache ip).copy with
      size := BitVec.ofNat 32 (max (s.icache ip).copy.size.toNat (off + n))
      addrs := addrs } }
  dinode : ∀ j < s.sb.ninodes.toNat, j ≠ i → s'.dinode j = s.dinode j
  synced : s.inode i = s.dinode i → s'.inode i = s'.dinode i
  old : ∀ k, s.addr k ≠ 0 → s'.addr k = s.addr k
  full : ∀ a ∈ slotsOf off n, s'.addr (i, a) ≠ 0
  blocks : missing s i (slotsOf off n) ≤ s.free
  wrote : Wrote i val off (off + n) s s'
  lh : ∀ c, c ∈ s'.lh ↔
    InLog s s' i off n c ∨ c = s.sb.iblock i ∧ (s.inode i).size.toNat < off + n

section WellFormed

variable (h : WellFormed s)
include h

theorem Grown.wellFormed (hip : s.Holds ip i) (hg : Grown ip i A s s') : WellFormed s' where
  mounted := hg.mounted
  owns := hg.owns
  noHoles j hlive' hfile bn hbn := by
    have hj : j < s.sb.ninodes.toNat := hg.sb ▸ hlive'.2.1
    have hsame : (s'.inode j).type = (s.inode j).type ∧ (s'.inode j).size = (s.inode j).size := by
      by_cases hji : j = i
      · subst hji
        obtain ⟨addrs, hcache⟩ := hg.icache
        rw [inode_of_holds h.mounted hip, inode_of_holds hg.mounted (hg.holds.mpr hip), hcache,
          update_self]
        exact ⟨rfl, rfl⟩
      · rw [hg.inode_of_ne h.mounted hip hj hji]
        exact ⟨rfl, rfl⟩
    rw [hsame.1] at hfile
    rw [hsame.2] at hbn
    have hlive : s.Live j := ⟨hlive'.1, hj, hsame.1 ▸ hlive'.2.2⟩
    have hold := h.noHoles j hlive hfile bn hbn
    rwa [hg.old _ hold]

variable {off n : ℕ}

theorem WellFormed.full (hlive : s.Live i) (hfile : (s.inode i).IsFile)
    (hsize : off + n ≤ (s.inode i).size.toNat) :
    ∀ a ∈ slotsOf off n, s.addr (i, a) ≠ 0 := by
  intro a ha
  obtain ⟨bn, hbn, ha⟩ := Finset.mem_biUnion.mp ha
  obtain ⟨k, hlo, hhi, rfl⟩ := mem_span.mp hbn
  have hk := h.addr_ne_zero hlive hfile (k := k) (by omega)
  rw [needed] at ha
  split_ifs at ha with hdirect
  · rw [blockSlot, if_pos hdirect] at hk
    exact Finset.mem_singleton.mp ha ▸ hk
  · rw [blockSlot, if_neg hdirect] at hk
    rcases Finset.mem_insert.mp ha with rfl | ha
    · intro h0
      rw [addr_eq_zero_iff hlive, slot_last] at h0
      refine hk ((addr_eq_zero_iff hlive _).mpr (slot_of_zero ?_ h0))
      omega
    · exact Finset.mem_singleton.mp ha ▸ hk

theorem written_inside (hip : s.Holds ip i) (hfile : (s.inode i).IsFile)
    (hg : Grown ip i (slotsOf off n) s s') (hw : Wrote i val off (off + n) s s')
    (hsize : off + n ≤ (s.inode i).size.toNat) : Written ip i val off n s s' := by
  have hlive := hip.live h.mounted hfile
  have hcache := hg.copy_eq h.mounted hip hlive (h.full hlive hfile hsize)
  have hinode := inode_of_holds h.mounted hip
  have hi := hlive.2.1
  refine ⟨hg.wellFormed h hip, hg.rest, ⟨(s.icache ip).copy.addrs, ?_⟩, fun j hj _ => hg.dinode j hj,
    fun hsync => ?_, hg.old, hg.full, hg.missing_le, hw, fun c => ?_⟩
  · rw [hcache, ← hinode, max_eq_left hsize, BitVec.ofNat_toNat, BitVec.setWidth_eq, hinode]
    exact (update_eq_self ip s.icache).symm
  · rw [hg.dinode i hi, ← hsync]
    exact inode_congr hcache (hg.dinode i hi)
  · rw [hg.mem_lh hw, or_iff_left fun h => Nat.not_lt.mpr hsize h.2]

theorem written_growing (hip : s.Holds ip i) (hfile : (s.inode i).IsFile) {size : Word}
    (hoff : off ≤ (s.inode i).size.toNat)
    (hsize : size.toNat = off + n) (hgrow : (s.inode i).size.toNat < off + n)
    (hg : Grown ip i (slotsOf off n) s s') (hw : Wrote i val off (off + n) s s') :
    Written ip i val off n s
      ((s'.putCopy ip { (s'.icache ip).copy with size := size }).store ip) := by
  have hlive := hip.live h.mounted hfile
  have hinode := inode_of_holds h.mounted hip
  have hip' := hg.holds.mpr hip
  have hlive' := hg.live h.mounted hip hlive
  have hinode' := inode_of_holds hg.mounted hip'
  obtain ⟨addrs, hcache⟩ := hg.icache
  set d := { (s'.icache ip).copy with size := size } with hd
  set s₂ := s'.putCopy ip d with hs₂
  have hm₂ : Mounted s₂ := hg.mounted.putCopy
  have hip₂ : s₂.Holds ip i := (holds_putCopy ip).mpr hip'
  have htype : d.type ≠ 0 := by
    have hne := hlive'.2.2
    rwa [hinode'] at hne
  have haddr₂ : ∀ x, s₂.addr x = s'.addr x :=
    addr_putCopy_of_addrs hg.mounted hip' hlive' htype rfl
  have ho₂ : Owns ∅ s₂ := hg.owns.putCopy haddr₂
  have haddr (x : ℕ × ℕ) : (s₂.store ip).addr x = s'.addr x :=
    (ho₂.addr_store hm₂ hip₂ x).trans (haddr₂ x)
  have hbytes (j k : ℕ) (hk : s'.addr (j, blockSlot (k / BSIZE)) ≠ 0) :
      (s₂.store ip).byte j k = s'.byte j k := by
    rw [keepsBytes_store hm₂ ho₂ hip₂ j k (by rwa [haddr₂]), State.byte, State.byte, haddr₂]
    rfl
  have hself : (s₂.store ip).inode i = d := by
    rw [inode_store hm₂ hip₂ hlive'.2.1, inode_putCopy_self hg.mounted hip']
  have hother (j : ℕ) (hj : j < s.sb.ninodes.toNat) (hne : j ≠ i) :
      (s₂.store ip).inode j = s.inode j := by
    rw [inode_store hm₂ hip₂ (show j < s'.sb.ninodes.toNat by rwa [hg.sb]),
      inode_putCopy_of_ne hg.mounted hip' hne, hg.inode_of_ne h.mounted hip hj hne]
  have hinum : (s₂.icache ip).inum = i := hip₂.2.2
  refine ⟨⟨hm₂.store hip₂.1, ho₂.store hm₂ hip₂, fun j hlive₃ hfile₃ bn hbn => ?_⟩, ?_, ⟨addrs, ?_⟩,
    fun j hj hne => ?_, fun _ => ?_, fun x hx => ?_,
    fun a ha => (haddr (i, a)).symm ▸ hg.full a ha, hg.missing_le,
    ⟨fun j k hk => ?_, fun k hlo hhi => ?_, fun k hlo hhi => ?_⟩, fun c => ?_⟩
  · have hj : j < s.sb.ninodes.toNat := by
      rw [← hg.sb]
      exact hlive₃.2.1
    rw [haddr]
    by_cases hji : j = i
    · subst hji
      rw [hself, hd, hsize] at hbn
      by_cases hin : bn * BSIZE < (s.inode j).size.toNat
      · have hold := h.noHoles j hlive hfile bn hin
        rwa [hg.old _ hold]
      · have hmem := blockSlot_mem_slotsOf (n := n) (show off ≤ bn * BSIZE by omega) (by omega)
        rw [Nat.mul_div_cancel bn (by decide)] at hmem
        exact hg.full _ hmem
    · rw [hother j hj hji] at hfile₃ hbn
      have hold := h.noHoles j ⟨hlive₃.1, hj, hother j hj hji ▸ hlive₃.2.2⟩ hfile₃ bn hbn
      rwa [hg.old _ hold]
  · have hrest := hg.rest
    rw [State.store, State.log, hs₂, State.putCopy, State.putInode]
    dsimp only
    rw [hrest]
  · have hmax : BitVec.ofNat 32 (max (s.icache ip).copy.size.toNat (off + n)) = size := by
      rw [← hinode, max_eq_right hgrow.le, ← hsize, BitVec.ofNat_toNat, BitVec.setWidth_eq]
    rw [hmax]
    show update s'.icache ip { s'.icache ip with copy := d } = _
    simp only [hd, hcache, update_self, update_idem]
  · rw [dinode_store_of_ne hm₂ hip₂.1 (by rwa [← hg.sb] at hj) (hinum.symm ▸ hne)]
    exact hg.dinode j hj
  · have hstore := dinode_store_self s₂ ip
    rw [hinum] at hstore
    rw [hself, hstore, hs₂, icache_putCopy_self]
  · rw [haddr]
    exact hg.old x hx
  · rw [hbytes j k (by rwa [hg.old _ hk])]
    exact hw.old j k hk
  · rw [hbytes i k (hg.full _ (blockSlot_mem_slotsOf hlo hhi))]
    exact hw.new k hlo hhi
  · rw [haddr]
    exact mem_lh_log.mpr (.inr (hw.logged k hlo hhi))
  · have hlog : InLog s (s₂.store ip) i off n c ↔ c ∈ s₂.lh := by
      simp only [InLog, haddr]
      exact (hg.mem_lh hw c).symm
    have hsb : s₂.sb = s.sb := hg.sb
    rw [hlog, State.store, mem_lh_log, hinum, hsb, and_iff_left hgrow, or_comm]

theorem writei_rejects (hip : s.Holds ip i) (hfile : (s.inode i).IsFile) {off n : Word}
    (hbad : (s.inode i).size.toNat < off.toNat ∨ MAXFILE * BSIZE < off.toNat + n.toNat) :
    (writei ip src off n).run s = .ok none s := by
  have hinode := inode_of_holds h.mounted hip
  rw [writei, get_bind, ← hinode, if_neg (IsFile.ne_dev hfile)]
  by_cases hguard : off > (s.inode i).size ∨ off + n < off
  · rw [if_pos hguard]
    rfl
  rw [if_neg hguard]
  rw [toNat_add_lt_iff, gt_iff_lt, BitVec.lt_def] at hguard
  have hsum : (off + n).toNat = off.toNat + n.toNat := by
    rw [BitVec.toNat_add]
    omega
  rw [if_pos (by rw [hsum]; omega)]
  rfl

theorem writei_ends (hip : s.Holds ip i) (hfile : (s.inode i).IsFile)
    (hout : 1 ≤ s.outstanding) {off n : Word} (hoff : off.toNat ≤ (s.inode i).size.toNat)
    (hmax : off.toNat + n.toNat ≤ MAXFILE * BSIZE) :
    Ends (writei ip src off n) s
      (fun r s' => r = some n.toNat ∧
        Written ip i (fun k => src (k - off.toNat)) off.toNat n.toNat s s')
      (fun e _ => Lacks s i (slotsOf off.toNat n.toNat) e) := by
  have hinode := inode_of_holds h.mounted hip
  have hlive := hip.live h.mounted hfile
  have hmax' : off.toNat + n.toNat ≤ 71680 := hmax
  have hsum : (off + n).toNat = off.toNat + n.toNat := by
    rw [BitVec.toNat_add]
    omega
  refine ends_get_bind ?_
  rw [← hinode, if_neg (IsFile.ne_dev hfile), if_neg, if_neg]
  · refine (writeLoop_ends (fun k => src (k - off.toNat)) h.mounted h.owns hip hlive hout
      le_rfl hmax fun j => ?_).bind ?_
    · rw [Nat.zero_add, Nat.add_sub_cancel_left]
    rintro _ s₁ ⟨hg, hw⟩
    refine ends_get_bind ?_
    obtain ⟨addrs, hcache⟩ := hg.icache
    have hsize : (s₁.icache ip).copy.size = (s.inode i).size := by
      rw [hcache, update_self, hinode]
    by_cases hgrow : n > 0 ∧ off + n > (s₁.icache ip).copy.size
    · rw [if_pos hgrow]
      have hlt := hgrow.2
      rw [gt_iff_lt, BitVec.lt_def, hsize, hsum] at hlt
      refine Ends.bind_of_eq setCopy_run ?_
      have hip₁ := hg.holds.mpr hip
      refine (iupdate_ends hg.mounted.putCopy ((ref_putCopy ip).symm ▸ hip₁.1)
        (hg.outstanding.symm ▸ hout)).bind_imp (fun e _ hE => ?_) ?_
      · exact hg.lacks le_rfl (lacks_of_full hg.mounted hE)
      · rintro _ _ rfl
        exact ⟨rfl, written_growing h hip hfile hoff hsum hlt hg hw⟩
    · rw [if_neg hgrow]
      refine ⟨rfl, written_inside h hip hfile hg hw ?_⟩
      rw [gt_iff_lt, gt_iff_lt, BitVec.lt_def, BitVec.lt_def, hsize, hsum] at hgrow
      have h0 : (0 : Word).toNat = 0 := rfl
      omega
  · rw [hsum]
    exact Nat.not_lt.mpr hmax
  · rw [toNat_add_lt_iff, gt_iff_lt, BitVec.lt_def]
    omega

end WellFormed

def writeBytes (c : List Byte) (off : ℕ) (data : List Byte) : Option (List Byte) :=
  if c.length < off ∨ MAXFILE * BSIZE < off + data.length then none
  else some (c.take off ++ data ++ c.drop (off + data.length))

section Written

variable {off n : ℕ} (hw : Written ip i val off n s s')

include hw

theorem Written.holds {k : Fin NINODE} {j : ℕ} : s'.Holds k j ↔ s.Holds k j := by
  obtain ⟨addrs, hcache⟩ := hw.icache
  rw [State.Holds, State.Holds, hcache]
  by_cases hk : k = ip
  · rw [hk, update_self]
  · rw [update_of_ne hk]
theorem Written.inode_of_ne (hm : Mounted s) (hip : s.Holds ip i) {j : ℕ}
    (hj : j < s.sb.ninodes.toNat) (hne : j ≠ i) : s'.inode j = s.inode j := by
  obtain ⟨addrs, hcache⟩ := hw.icache
  refine inode_congr_of_holds hm hw.wf.mounted (fun _ => hw.holds) (fun k hk => ?_)
    fun _ => hw.dinode j hj hne
  rw [hcache, update_of_ne (hk.ne hip hne)]

theorem Written.inode_self (hm : Mounted s) (hip : s.Holds ip i) : ∃ addrs, s'.inode i =
    { s.inode i with
      size := BitVec.ofNat 32 (max (s.inode i).size.toNat (off + n)), addrs := addrs } := by
  obtain ⟨addrs, hcache⟩ := hw.icache
  refine ⟨addrs, ?_⟩
  rw [inode_of_holds hm hip, inode_of_holds hw.wf.mounted (hw.holds.mpr hip), hcache,
    update_self]

theorem Written.contents_of_ne (h : WellFormed s) (hip : s.Holds ip i) {j : ℕ} (hlive : s.Live j)
    (hfile : (s.inode j).IsFile) (hne : j ≠ i) : s'.contents j = s.contents j := by
  rw [State.contents, State.contents, hw.inode_of_ne h.mounted hip hlive.2.1 hne]
  refine List.map_congr_left fun k hk => ?_
  rw [hw.wrote.old j k (h.addr_ne_zero hlive hfile (List.mem_range.mp hk)), if_neg fun h => hne h.1]

theorem Written.contents_self (h : WellFormed s) (hip : s.Holds ip i) (hfile : (s.inode i).IsFile)
    (hoff : off ≤ (s.inode i).size.toNat) (hmax : off + n ≤ MAXFILE * BSIZE) :
    s'.contents i = (s.contents i).take off ++ (List.range n).map (fun j => val (off + j)) ++
      (s.contents i).drop (off + n) := by
  have hlive := hip.live h.mounted hfile
  have hle := h.size_le hlive hfile
  obtain ⟨addrs, hinode⟩ := hw.inode_self h.mounted hip
  have hmax' : off + n ≤ 71680 := hmax
  have hle' : (s.inode i).size.toNat ≤ 71680 := hle
  have hsize : (s'.inode i).size.toNat = max (s.inode i).size.toNat (off + n) := by
    rw [hinode, BitVec.toNat_ofNat]
    omega
  rw [State.contents, State.contents, hsize]
  apply List.ext_getElem
  · simp
    omega
  · intro k h₁ h₂
    rw [List.length_map, List.length_range] at h₁
    simp only [List.getElem_map, List.getElem_range, List.getElem_append, List.length_append,
      List.length_take, List.length_map, List.length_range, List.getElem_take, List.getElem_drop]
    by_cases hin : off ≤ k ∧ k < off + n
    · rw [hw.wrote.new k hin.1 hin.2, dif_pos (by omega), dif_neg (by omega)]
      congr 1
      omega
    · have hk : k < (s.inode i).size.toNat := by omega
      rw [hw.wrote.old i k (h.addr_ne_zero hlive hfile hk), if_neg (by omega)]
      by_cases hlt : k < off
      · rw [dif_pos (by omega), dif_pos (by omega)]
      · rw [dif_neg (by omega)]
        congr 1
        omega

end Written

/-- There are blocks for the empty slots of the range, and the log can take the blocks that a
write to it changes. -/
structure Room (s : State) (i off n : ℕ) : Prop where
  blocks : missing s i (slotsOf off n) ≤ s.free
  log : s.lh.length + (slotsOf off n).card + 1 < s.logCap

theorem Room.not_lacks {off n : ℕ} (hm : Mounted s) (h : Room s i off n) (e : Halt) :
    ¬ Lacks s i (slotsOf off n) e := by
  rintro (hblocks | ⟨f, -, hlog⟩)
  · exact Nat.not_lt.mpr h.blocks hblocks
  · have hcard : (insert s.sb.bmapstart (s.lh.toFinset ∪ (slotsOf off n).image f)).card ≤
        s.lh.length + (slotsOf off n).card + 1 := by
      refine (Finset.card_insert_le _ _).trans (Nat.succ_le_succ ?_)
      refine (Finset.card_union_le _ _).trans (Nat.add_le_add ?_ Finset.card_image_le)
      exact hm.length_lh.ge
    exact Nat.not_lt.mpr (hlog.trans hcard) h.log

structure RefinesBytes (s : State) (ip : Fin NINODE) (i : ℕ) (src : ℕ → Byte) (off n : Word) :
    Prop where
  read : (readi ip off n).run s = .ok (readBytes (s.contents i) off.toNat n.toNat) s
  write : Returns (writei ip src off n) s fun r s' =>
    match writeBytes (s.contents i) off.toNat ((List.range n.toNat).map src) with
    | none => r = none ∧ s' = s
    | some c => r = some n.toNat ∧ s'.contents i = c ∧ (s'.inode i).size.toNat = c.length ∧
      ∀ j ≠ i, s.Live j → (s.inode j).IsFile →
        s'.inode j = s.inode j ∧ s'.contents j = s.contents j

end Write

section Small

def smallSb (size : ℕ) : Superblock where
  size := BitVec.ofNat 32 size
  nblocks := BitVec.ofNat 32 (size - 34)
  ninodes := 3
  nlog := 30
  logstart := 2
  inodestart := 32
  bmapstart := 33

def smallRoot : Dinode := ⟨T_DIR, 0, 0, 1, 48, fun k => if k = 0 then 34 else 0⟩

def smallFile : Dinode := ⟨T_FILE, 0, 0, 1, 0, fun _ => 0⟩

def smallDisk (size : ℕ) : Disk := fun b =>
  if b = 1 then (smallSb size).toBlock fun _ => 0
  else if b = 32 then setDinode (setDinode (fun _ => 0) 1 smallRoot) 2 smallFile
  else if b = 33 then markFirst 35
  else if b = 34 then
    storeWord (storeWord (storeWord (fun _ => 0) 0 0x002e0001) 4 0x2e2e0001) 8 0x00660002
  else fun _ => 0

def smallState (size : ℕ) : State where
  disk := smallDisk size
  sb := smallSb size
  icache k := if k = 0 then ⟨2, 1, true, true, smallFile⟩ else ⟨0, 0, false, false, Dinode.zero⟩
  devsw := ⟨fun _ => none, fun _ => none⟩
  logSize := LOGSIZE
  outstanding := 1
  lh := []
  committed := []

variable {size : ℕ}

theorem size_small (hhi : size ≤ FSSIZE) : (smallSb size).size.toNat = size := by
  simp only [FSSIZE] at hhi
  exact Nat.mod_eq_of_lt (show size < 2 ^ 32 by omega)

theorem dataStart_small (hhi : size ≤ FSSIZE) : (smallSb size).dataStart = 34 := by
  simp only [FSSIZE] at hhi
  have hdiv : size / BPB = 0 := Nat.div_eq_of_lt (show size < 4096 by omega)
  rw [Superblock.dataStart, size_small hhi, hdiv]
  rfl

theorem layout_small (hlo : 35 ≤ size) (hhi : size ≤ FSSIZE) : (smallSb size).Layout where
  inodes := show 2 ≤ 32 by decide
  bitmap := by
    rw [show (smallSb size).inodestart = 32 from rfl, show (smallSb size).ninodes = 3 from rfl,
      show (smallSb size).bmapstart = 33 from rfl]
    decide
  data := by
    rw [dataStart_small hhi, size_small hhi]
    omega
  disk := by rwa [size_small hhi]

theorem mounted_small (hlo : 35 ≤ size) (hhi : size ≤ FSSIZE) : Mounted (smallState size) where
  nodup := List.nodup_nil
  super := (Superblock.ofBlock_toBlock _ _).symm
  layout := layout_small hlo hhi
  unique k l hk hl _ := by
    have hzero (k : Fin NINODE) (hk : 0 < ((smallState size).icache k).ref) : k = 0 := by
      by_contra hne
      simp only [smallState, if_neg hne] at hk
      exact Nat.lt_irrefl 0 hk
    rw [hzero k hk, hzero l hl]
  range k hk := by
    by_cases hne : k = 0
    · rw [hne]
      exact ⟨show 1 ≤ 2 by decide, show 2 < 3 by decide⟩
    · simp only [smallState, if_neg hne] at hk
      exact absurd hk (Nat.lt_irrefl 0)

theorem inode_small_two (hlo : 35 ≤ size) (hhi : size ≤ FSSIZE) :
    (smallState size).inode 2 = smallFile :=
  inode_of_holds (mounted_small hlo hhi) (⟨show 0 < 1 by decide, rfl, rfl⟩ : State.Holds _ 0 2)

theorem inode_small_one : (smallState size).inode 1 = smallRoot := by
  rw [inode_of_not_holds fun k hk => ?_]
  · rw [State.dinode]
    show getDinode (setDinode (setDinode (fun _ => 0) 1 smallRoot) 2 smallFile) 1 = smallRoot
    rw [getDinode_setDinode_ne _ _ (by decide) (by decide), getDinode_setDinode_self _ _ (by decide)]
  · by_cases hne : k = 0
    · rw [hne] at hk
      exact absurd hk.2.2 (show ¬ 2 = 1 by decide)
    · have href := hk.1
      simp only [smallState, if_neg hne] at href
      exact Nat.lt_irrefl 0 href

theorem addr_small (hlo : 35 ≤ size) (hhi : size ≤ FSSIZE) (k : ℕ × ℕ) :
    (smallState size).addr k = if k = (1, 0) then 34 else 0 := by
  obtain ⟨i, a⟩ := k
  by_cases hlive : (smallState size).Live i
  · rw [addr_of_live hlive]
    have hlt : i < 3 := hlive.2.1
    have hpos := hlive.1
    obtain rfl | rfl : i = 1 ∨ i = 2 := by omega
    · rw [inode_small_one]
      by_cases hle : a ≤ NDIRECT
      · rw [slot_of_le hle]
        by_cases ha : a = 0
        · subst ha
          rfl
        · have hne : (⟨a, Nat.lt_succ_of_le hle⟩ : Fin (NDIRECT + 1)) ≠ 0 :=
            fun h => ha (congrArg Fin.val h)
          rw [if_neg fun h => ha (Prod.mk.inj h).2]
          exact congrArg BitVec.toNat (if_neg hne)
      · have ha : a ≠ 0 := by omega
        rw [slot_of_zero (Nat.not_le.mp hle) rfl, if_neg fun h => ha (Prod.mk.inj h).2]
        rfl
    · rw [inode_small_two hlo hhi, if_neg fun h => absurd (Prod.mk.inj h).1 (by decide)]
      by_cases hle : a ≤ NDIRECT
      · rw [slot_of_le hle]
        rfl
      · rw [slot_of_zero (Nat.not_le.mp hle) rfl]
        rfl
  · rw [State.addr, if_neg hlive, if_neg]
    intro h
    rw [(Prod.mk.inj h).1] at hlive
    exact hlive ⟨le_rfl, show 1 < 3 by decide, by rw [inode_small_one]; decide⟩

theorem wellFormed_small (hlo : 35 ≤ size) (hhi : size ≤ FSSIZE) :
    WellFormed (smallState size) := by
  have hm := mounted_small hlo hhi
  have haddr := addr_small hlo hhi
  have hsize := size_small hhi
  have hdata := dataStart_small hhi
  have hbit (b : ℕ) (hb : b < size) : (smallState size).bit b = decide (b < 35) := by
    rw [bit_eq hm.layout (hsize.symm ▸ hb)]
    exact bitSet_markFirst 35 (show b < 4096 by simp only [FSSIZE] at hhi; omega)
  have hmem {k : ℕ × ℕ} (hk : (smallState size).addr k ≠ 0) : k = (1, 0) := by
    by_contra hne
    rw [haddr, if_neg hne] at hk
    exact hk rfl
  refine ⟨hm, ⟨?_, fun b hb => ?_⟩, fun i hlive hfile bn hbn => ?_⟩
  · rw [show (smallState size).sb = smallSb size from rfl, hdata, hsize]
    refine ⟨by decide, fun k l hkl hk => ?_, fun k hk => ?_, fun b hb hb' => ?_, by simp, by simp⟩
    · have hl : (smallState size).addr l ≠ 0 := by rwa [← hkl]
      rw [hmem hk, hmem hl]
    · have hk' := hmem hk
      rw [hk', haddr, if_pos rfl]
      omega
    · rw [hbit b hb', decide_eq_true_eq]
      constructor
      · intro hlt
        exact .inr ⟨(1, 0), by rw [haddr, if_pos rfl]; omega⟩
      · rintro (hin | ⟨k, hk⟩)
        · exact absurd hin (Set.notMem_empty b)
        · rw [haddr] at hk
          split_ifs at hk <;> omega
  · rw [show (smallState size).sb = smallSb size from rfl, hdata] at hb
    rw [hbit b (by omega), decide_eq_true_eq]
    omega
  · have hlt : i < 3 := hlive.2.1
    have hpos := hlive.1
    obtain rfl | rfl : i = 1 ∨ i = 2 := by omega
    · rw [inode_small_one] at hbn
      have h48 : smallRoot.size.toNat = 48 := rfl
      simp only [BSIZE, h48] at hbn
      obtain rfl : bn = 0 := by omega
      rw [haddr]
      decide
    · rw [inode_small_two hlo hhi] at hbn
      exact absurd hbn (Nat.not_lt_zero _)

end Small

end Xv6Prng.FileSys
