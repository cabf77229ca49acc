import Xv6Prng.Mkfs

/-!
# What the kernel makes of an image

`mkfs` ends well if the files fit, and then the root directory lists them in order and their
inodes have their contents. The image is one that the kernel can use if there are not too many
files and the entries of the root directory do not fill its last block exactly.
-/

namespace Xv6Prng.Mkfs

open ByteWords Halting Fs FileSys BlockMap Function

structure Rooted (n : ℕ) (s : State) : Prop where
  settled : Settled s
  some : 1 < s.freeinode.toNat
  size : (dinodes s.image ROOTINO).size.toNat = DESIZE * n

def Input.stored (f : Input) : List Byte :=
  if f.name.head? = some 0x5f then f.name.tail else f.name

def State.entry (s : State) (k : ℕ) : Dirent := .ofBytes fun j => s.byte ROOTINO (DESIZE * k + j)

def blocksUsed (files : List Input) : ℕ :=
  nmeta + blocksFor (DESIZE * (files.length + 2)) +
    (files.map fun f => blocksFor f.contents.length).sum

structure Listed (files : List Input) (s : State) : Prop where
  rooted : Rooted (files.length + 2) s
  freeinode : s.freeinode.toNat = files.length + 2
  freeblock : s.freeblock.toNat ≤ blocksUsed files
  root : (dinodes s.image ROOTINO).type = T_DIR ∧ (dinodes s.image ROOTINO).nlink = 1
  dots : s.entry 0 = .make (ofList [0x2e]) ROOTINO ∧ s.entry 1 = .make (ofList [0x2e, 0x2e]) ROOTINO
  entry : ∀ m f, files[m]? = some f → s.entry (m + 2) = .make (ofList f.stored) (m + 2)
  kind : ∀ m f, files[m]? = some f → (dinodes s.image (m + 2)).type = T_FILE
  size : ∀ m f, files[m]? = some f →
    (dinodes s.image (m + 2)).size.toNat = f.contents.length
  contents : ∀ m f, files[m]? = some f → ∀ k < f.contents.length,
    s.byte (m + 2) k = ofList f.contents k

structure Fits (files : List Input) : Prop where
  names : ∀ f ∈ files, 0x2f ∉ f.name
  inodes : files.length + 2 ≤ NINODES
  maxfile : ∀ f ∈ files, f.contents.length ≤ MAXFILE * BSIZE
  blocks : blocksUsed files ≤ FSSIZE

section Files

variable {s s' : State} {n : ℕ} {files : List Input} {f : Input}

theorem blocksUsed_snoc (files : List Input) (f : Input) :
    blocksUsed (files ++ [f]) + blocksFor (DESIZE * (files.length + 2)) =
      blocksUsed files + blocksFor (DESIZE * (files.length + 2 + 1)) + blocksFor f.contents.length := by
  have hlen : (files ++ [f]).length + 2 = files.length + 2 + 1 := by simp
  rw [blocksUsed, blocksUsed, hlen, List.map_append, List.sum_append, List.map_singleton,
    List.sum_singleton]
  omega

theorem blocksUsed_le_append (files rest : List Input) :
    blocksUsed files ≤ blocksUsed (files ++ rest) := by
  have hmono : blocksFor (DESIZE * (files.length + 2)) ≤
      blocksFor (DESIZE * ((files ++ rest).length + 2)) := by
    refine blocksFor_mono (Nat.mul_le_mul_left _ ?_)
    rw [List.length_append]
    omega
  simp only [blocksUsed, List.map_append, List.sum_append]
  omega

theorem Rooted.iappend_ends (h : Rooted n s) (hn : n < NINODES) (de : Dirent) :
    Ends (iappend ROOTINO de.bytes DESIZE) s
      (fun _ s' => Rooted (n + 1) s' ∧ Appended ROOTINO DESIZE de.bytes s s' ∧
        s'.freeblock.toNat + blocksFor (DESIZE * n) ≤
          s.freeblock.toNat + blocksFor (DESIZE * (n + 1)))
      (fun _ _ => FSSIZE + blocksFor (DESIZE * n) <
        s.freeblock.toNat + blocksFor (DESIZE * (n + 1))) := by
  have happ := Mkfs.iappend_ends (p := de.bytes) (n := DESIZE) h.settled ⟨le_rfl, h.some⟩ (by decide)
  rw [h.size, ← Nat.mul_succ] at happ
  refine happ.mono ?_ ?_
  · rintro _ s' ⟨happ, hfb⟩
    refine ⟨⟨happ.settled, happ.freeinode.symm ▸ h.some, ?_⟩, happ, hfb⟩
    rw [happ.size, h.size, Nat.mul_succ]
  · rintro e _ (hmax | hfb)
    · simp only [MAXFILE, BSIZE, DESIZE, NINODES] at hmax hn
      omega
    · exact hfb

theorem Appended.entry_last {de : Dirent} (h : Appended ROOTINO DESIZE de.bytes s s')
    (hsize : (dinodes s.image ROOTINO).size.toNat = DESIZE * n) : s'.entry n = de := by
  rw [State.entry, ← Dirent.ofBytes_bytes de]
  refine Dirent.ofBytes_congr fun j hj => ?_
  rw [← hsize]
  exact h.new j hj

theorem Appended.entry_old {i m : ℕ} {p : Str} (h : Appended i m p s s')
    (hsize : (dinodes s.image ROOTINO).size.toNat = DESIZE * n) {k : ℕ} (hk : k < n) :
    s'.entry k = s.entry k := by
  refine Dirent.ofBytes_congr fun j hj => h.old ROOTINO _ ?_
  rw [hsize]
  simp only [DESIZE] at hj ⊢
  omega

theorem Listed.addFile_ends (h : Listed files s) (hn : files.length + 2 < NINODES) (f : Input) :
    Ends (addFile ROOTINO f) s (fun _ s' => Listed (files ++ [f]) s')
      (fun _ _ => 0x2f ∈ f.name ∨ MAXFILE * BSIZE < f.contents.length ∨
        FSSIZE < blocksUsed (files ++ [f])) := by
  have hused := blocksUsed_snoc files f
  have hmono : blocksFor (DESIZE * (files.length + 2)) ≤ blocksFor (DESIZE * (files.length + 2 + 1)) :=
    blocksFor_mono (Nat.mul_le_mul_left _ (Nat.le_succ _))
  have hfb := h.freeblock
  have hroot1 : ROOTINO = 1 := rfl
  rw [addFile]
  by_cases hslash : 0x2f ∈ f.name
  · rw [if_pos hslash]
    exact ends_throw (.inl hslash)
  rw [if_neg hslash]
  refine (ialloc_returns h.rooted.settled (h.freeinode.symm ▸ hn) (by decide)).ends.bind ?_
  rintro i s₁ ⟨hi, hsettled, hfi₁, hfb₁, hdin, hbyte⟩
  rw [h.freeinode] at hi hfi₁
  subst hi
  have hroot₁ : Rooted (files.length + 2) s₁ := by
    refine ⟨hsettled, by omega, ?_⟩
    rw [hdin, update_of_ne (by omega), h.rooted.size]
  refine (hroot₁.iappend_ends hn (.make (ofList f.stored) (files.length + 2))).bind_imp
    (fun _ _ hE => ?_) ?_
  · rw [hfb₁] at hE
    exact .inr (.inr (by omega))
  rintro _ s₂ ⟨hroot₂, happ₂, hfb₂⟩
  have hzero : (dinodes s₂.image (files.length + 2)).size.toNat = 0 := by
    rw [happ₂.others _ (by omega), hdin, update_self]
    rfl
  have hi₂ : 1 ≤ files.length + 2 ∧ files.length + 2 < s₂.freeinode.toNat := by
    rw [happ₂.freeinode, hfi₁]
    exact ⟨by omega, Nat.lt_succ_self _⟩
  have hcontents := appendContents_ends hroot₂.settled hi₂ (le_refl f.contents.length)
  rw [hzero, Nat.zero_add] at hcontents
  have hblocks0 : blocksFor 0 = 0 := rfl
  refine hcontents.mono ?_ ?_
  · rintro _ s₃ ⟨happ₃, hfb₃⟩
    have hne (m : ℕ) (hm : m < files.length + 2) : m ≠ files.length + 2 := hm.ne
    -- inodes and bytes of the files before, through the three steps
    have hdinodes (m : ℕ) (hm : m < files.length + 2) (hm1 : m ≠ ROOTINO) :
        dinodes s₃.image m = dinodes s.image m := by
      rw [happ₃.others m (hne m hm), happ₂.others m hm1, hdin, update_of_ne (hne m hm)]
    have hold (m k : ℕ) (hm : m < files.length + 2) (hk : k < (dinodes s.image m).size.toNat) :
        s₃.byte m k = s.byte m k := by
      have hk₁ : k < (dinodes s₁.image m).size.toNat := by
        rwa [hdin, update_of_ne (hne m hm)]
      have hk₂ : k < (dinodes s₂.image m).size.toNat := by
        by_cases hm1 : m = ROOTINO
        · rw [hm1] at hk₁ ⊢
          rw [happ₂.size]
          exact Nat.lt_add_right _ hk₁
        · rwa [happ₂.others m hm1]
      rw [happ₃.old m k hk₂, happ₂.old m k hk₁, hbyte m k hk]
    have hentry (k : ℕ) (hk : k < files.length + 2) : s₃.entry k = s.entry k := by
      refine Dirent.ofBytes_congr fun j hj => hold ROOTINO _ (by omega) ?_
      rw [h.rooted.size]
      simp only [DESIZE] at hj ⊢
      omega
    have hget (m : ℕ) (g : Input) (hg : (files ++ [f])[m]? = some g) :
        files[m]? = some g ∧ m < files.length ∨ m = files.length ∧ g = f := by
      rw [List.getElem?_append] at hg
      split_ifs at hg with hlt
      · exact .inl ⟨hg, hlt⟩
      · rw [List.getElem?_singleton] at hg
        split_ifs at hg with h0
        exact .inr ⟨by omega, (Option.some_inj.mp hg).symm⟩
    have hroot₃ : dinodes s₃.image ROOTINO = dinodes s₂.image ROOTINO := happ₃.others _ (by omega)
    have hlen : (files ++ [f]).length = files.length + 1 := by simp
    refine ⟨⟨happ₃.settled, ?_, ?_⟩, ?_, ?_, ?_, ?_, fun m g hg => ?_, fun m g hg => ?_,
      fun m g hg => ?_, fun m g hg k hk => ?_⟩
    · rw [happ₃.freeinode]
      exact hroot₂.some
    · rw [hroot₃, hroot₂.size, hlen]
    · rw [happ₃.freeinode, happ₂.freeinode, hfi₁, hlen]
    · rw [hfb₁] at hfb₂
      omega
    · rw [hroot₃, happ₂.kind, hdin, update_of_ne (by omega)]
      exact h.root
    · rw [hentry 0 (by omega), hentry 1 (by omega)]
      exact h.dots
    · rcases hget m g hg with ⟨hg, hlt⟩ | ⟨rfl, rfl⟩
      · rw [hentry (m + 2) (by omega)]
        exact h.entry m g hg
      · rw [happ₃.entry_old hroot₂.size (Nat.lt_succ_self _)]
        exact happ₂.entry_last hroot₁.size
    · rcases hget m g hg with ⟨hg, hlt⟩ | ⟨rfl, rfl⟩
      · rw [hdinodes (m + 2) (by omega) (by omega)]
        exact h.kind m g hg
      · rw [happ₃.kind, happ₂.others _ (by omega), hdin, update_self]
    · rcases hget m g hg with ⟨hg, hlt⟩ | ⟨rfl, rfl⟩
      · rw [hdinodes (m + 2) (by omega) (by omega)]
        exact h.size m g hg
      · rw [happ₃.size, hzero, Nat.zero_add]
    · rcases hget m g hg with ⟨hg, hlt⟩ | ⟨rfl, rfl⟩
      · rw [hold (m + 2) k (by omega) (by rwa [h.size m g hg])]
        exact h.contents m g hg k hk
      · have hnew := happ₃.new k hk
        rwa [hzero, Nat.zero_add] at hnew
  · rintro e _ (hE | hE)
    · exact .inr (.inl hE)
    · rw [hfb₁] at hfb₂
      exact .inr (.inr (by omega))

theorem Listed.addFiles_ends (h : Listed files s) {rest : List Input}
    (hn : files.length + rest.length + 2 ≤ NINODES) :
    Ends (addFiles ROOTINO rest) s (fun _ s' => Listed (files ++ rest) s')
      (fun _ _ => ¬ Fits (files ++ rest)) := by
  induction rest generalizing s files with
  | nil =>
    rw [List.append_nil]
    exact ends_pure h
  | cons f rest ih =>
    rw [List.length_cons] at hn
    have hsplit : files ++ f :: rest = files ++ [f] ++ rest := by simp
    refine (h.addFile_ends (by omega) f).bind_imp (fun _ _ hE hfits => ?_) fun _ s₁ h₁ => ?_
    · have hf : f ∈ files ++ f :: rest := by simp
      rcases hE with hslash | hmax | hblocks
      · exact hfits.names f hf hslash
      · exact absurd (hfits.maxfile f hf) (Nat.not_le.mpr hmax)
      · have hle := blocksUsed_le_append (files ++ [f]) rest
        rw [← hsplit] at hle
        exact absurd (hle.trans hfits.blocks) (Nat.not_le.mpr hblocks)
    · rw [hsplit]
      refine ih h₁ ?_
      rw [List.length_append, List.length_singleton]
      omega

end Files

def boot (image : Disk) : FileSys.State where
  disk := image
  sb := .ofBlock (image 1)
  icache _ := ⟨0, 0, false, false, Dinode.zero⟩
  devsw := ⟨fun _ => none, fun _ => none⟩
  logSize := (Superblock.ofBlock (image 1)).nlog.toNat
  outstanding := 0
  lh := []
  committed := []

structure ImageOk (s : State) : Prop where
  range : ∀ k, (boot s.image).addr k ≠ 0 →
    nmeta ≤ (boot s.image).addr k ∧ (boot s.image).addr k < FSSIZE
  once : ∀ k l, (boot s.image).addr k = (boot s.image).addr l → (boot s.image).addr k ≠ 0 → k = l
  full : ∀ i, (boot s.image).Live i → ∀ bn, bn * BSIZE < ((boot s.image).inode i).size.toNat →
    (boot s.image).addr (i, blockSlot bn) ≠ 0
  inums : s.freeinode.toNat ≤ NINODES
  bitmap : ∀ b < BPB, bitSet (s.image sb.bmapstart) b = decide (b < s.freeblock.toNat)
  kernel : WellFormed (boot s.image)

section Image

variable {s : State} {n : ℕ}

theorem blank_returns (hs : s = start) :
    Returns blank s fun _ s' => s' = { start with sectors := FSSIZE } := by
  unfold blank
  refine (forLoop_returns (fun i _ s => s = { start with sectors := i }) hs ?_).mono ?_
  · rintro i _ _ - hi rfl
    rw [Nat.zero_add] at hi
    have hseek : seek (BitVec.ofNat 32 i) = BitVec.ofNat 32 i :=
      seek_of_lt (by rwa [ofNat_toNat_of_lt hi.le])
    refine returns_of_eq (EStateM.run_modify ..) ?_
    rw [hseek, ofNat_toNat_of_lt hi.le]
    have hmax : max i (i + 1) = i + 1 := max_eq_right (Nat.le_succ i)
    have himage : update start.image (BitVec.ofNat 32 i) (fun _ => 0) = start.image :=
      update_eq_self (BitVec.ofNat 32 i) start.image
    simp only [hmax, himage]
  · rintro _ s rfl
    rw [Nat.zero_add]

def formatted : State := ({ start with sectors := FSSIZE } : State).write 1 (sb.toBlock fun _ => 0)

theorem dinodes_formatted : dinodes formatted.image = fun _ => Dinode.zero := by
  funext i
  rw [dinodes]
  split_ifs with hi
  · have hne : sb.iblock i ≠ 1 := by
      intro heq
      have hlt := (iblock_lt hi).1
      rw [heq] at hlt
      exact absurd hlt (by decide)
    rw [formatted, image_write_of_ne hne]
    exact getDinode_zero _
  · rfl

theorem settled_formatted : Settled formatted := by
  have haddr (x : ℕ × ℕ) : addrOf (dinodes formatted.image) formatted.image x = 0 := by
    rw [addrOf, dinodes_formatted]
    exact slot_zero ..
  refine ⟨⟨rfl, ?_, by decide, by decide, fun i _ => ?_, fun i hi hi' => ?_, fun b hb hb' => ?_, ?_,
    fun i bn hbn => ?_⟩, fun i bn _ => haddr _⟩
  · rw [formatted, image_write_self, Superblock.ofBlock_toBlock]
  · rw [dinodes_formatted]
  · have hlt : i < 1 := hi'
    omega
  · rw [formatted, image_write_of_ne fun heq => ?_]
    · rfl
    · have hb59 : 59 ≤ b := hb
      have hnat := congrArg BitVec.toNat heq
      rw [ofNat_toNat_of_lt hb'.le, show (1 : Word).toNat = 1 from rfl] at hnat
      omega
  · refine ⟨by decide, fun k l _ hk => absurd (haddr k) hk, fun k hk => absurd (haddr k) hk,
      fun b hb _ => ⟨fun hlt => absurd hlt (Nat.not_lt.mpr hb), ?_⟩, by simp, by simp⟩
    rintro (hin | ⟨k, hk⟩)
    · exact absurd hin (Set.notMem_empty b)
    · have hb59 : 59 ≤ b := hb
      rw [haddr] at hk
      omega
  · rw [dinodes_formatted] at hbn
    exact absurd hbn (Nat.not_lt_zero _)

def State.final (s : State) : State :=
  (s.store ROOTINO (sized (dinodes s.image ROOTINO)
    (((dinodes s.image ROOTINO).size.toNat / BSIZE + 1) * BSIZE))).write sb.bmapstart
    (markFirst s.freeblock.toNat)

theorem listed_nil_ends {s : State} (h : Rooted 0 s) (hfi : s.freeinode.toNat = 2)
    (hfb : s.freeblock.toNat = nmeta)
    (hroot : (dinodes s.image ROOTINO).type = T_DIR ∧ (dinodes s.image ROOTINO).nlink = 1) :
    Ends (do
        iappend ROOTINO (Dirent.make (ofList [0x2e]) ROOTINO).bytes DESIZE
        iappend ROOTINO (Dirent.make (ofList [0x2e, 0x2e]) ROOTINO).bytes DESIZE : M Unit) s
      (fun _ s' => Listed [] s') (fun _ _ => False) := by
  have h0 : blocksFor (DESIZE * 0) = 0 := rfl
  have h1 : blocksFor (DESIZE * (0 + 1)) = 1 := rfl
  have h2 : blocksFor (DESIZE * (0 + 1 + 1)) = 1 := rfl
  have hmeta : nmeta = 59 := rfl
  refine (h.iappend_ends (by decide) _).bind_imp (fun _ _ hE => ?_) ?_
  · simp only [FSSIZE] at hE
    omega
  rintro _ s₁ ⟨hroot₁, happ₁, hfb₁⟩
  refine (hroot₁.iappend_ends (by decide) _).mono ?_ fun _ _ hE => ?_
  · rintro _ s₂ ⟨hroot₂, happ₂, hfb₂⟩
    refine ⟨hroot₂, ?_, ?_, ?_, ⟨?_, ?_⟩, nofun, nofun, nofun, nofun⟩
    · rw [happ₂.freeinode, happ₁.freeinode, hfi]
      rfl
    · have hused : blocksUsed [] = 60 := rfl
      omega
    · rw [happ₂.kind, happ₁.kind]
      exact hroot
    · rw [happ₂.entry_old hroot₁.size Nat.one_pos]
      exact happ₁.entry_last h.size
    · exact happ₂.entry_last hroot₁.size
  · simp only [FSSIZE] at hE
    omega

theorem mkfs_ends {files : List Input} (hn : files.length + 2 ≤ NINODES) :
    Ends (mkfs files) start (fun _ s' => ∃ s, Listed files s ∧ s' = s.final)
      (fun _ _ => ¬ Fits files) := by
  refine (blank_returns rfl).ends.bind ?_
  rintro _ _ rfl
  refine Ends.bind_of_eq (wsect_run rfl (by decide)) ?_
  refine (ialloc_returns settled_formatted (by decide) (by decide)).ends.bind ?_
  rintro _ s₁ ⟨rfl, hsettled, hfi, hfb, hdin, -⟩
  rw [if_neg (by decide)]
  have hroot : Rooted 0 s₁ := by
    refine ⟨hsettled, by rw [hfi]; decide, ?_⟩
    rw [hdin]
    rfl
  have hdots := listed_nil_ends hroot (by rw [hfi]; decide) (by rw [hfb]; decide)
    (by rw [hdin]; exact ⟨rfl, rfl⟩)
  rw [← bind_assoc]
  refine hdots.bind_imp (fun _ _ hE => hE.elim) fun _ s₂ h₂ => ?_
  have hlen : ([] : List Input).length + files.length + 2 ≤ NINODES := by simpa using hn
  refine (h₂.addFiles_ends hlen).bind fun _ s h => ?_
  rw [List.nil_append] at h
  have hb := h.rooted.settled.built
  refine Ends.bind_of_eq (rinode_run hb.sectors (by decide)) ?_
  refine Ends.bind_of_eq (winode_run hb.sectors (by decide)) ?_
  refine ends_get_bind ?_
  have hle : s.freeblock.toNat ≤ 1000 := hb.range.2
  have hroom : ¬ BSIZE * 8 ≤ s.freeblock.toNat := by
    simp only [BSIZE]
    omega
  have hrun : (balloc s.freeblock.toNat).run (s.store ROOTINO (sized (dinodes s.image ROOTINO)
      (((dinodes s.image ROOTINO).size.toNat / BSIZE + 1) * BSIZE))) = .ok () s.final := by
    rw [balloc, if_neg hroom]
    exact wsect_run hb.sectors (by decide)
  exact ends_of_ok hrun ⟨s, h, rfl⟩

end Image

section Kernel

variable {s : State}

theorem inode_boot {i : ℕ} (hsuper : Superblock.ofBlock (s.image 1) = sb) (hi : i < NINODES) :
    (boot s.image).inode i = dinodes s.image i := by
  rw [inode_of_not_holds fun k hk => Nat.lt_irrefl 0 hk.1, dinodes, if_pos hi, State.dinode]
  show getDinode (s.image ((Superblock.ofBlock (s.image 1)).iblock i)) _ = _
  rw [hsuper]

theorem live_boot_iff (h : Built (dinodes s.image) s) {i : ℕ} :
    (boot s.image).Live i ↔ 1 ≤ i ∧ i < s.freeinode.toNat := by
  have hninodes : (boot s.image).sb.ninodes.toNat = NINODES := by
    show (Superblock.ofBlock (s.image 1)).ninodes.toNat = _
    rw [h.super]
    rfl
  rw [State.Live, hninodes]
  constructor
  · rintro ⟨hi, hi', htype⟩
    rw [inode_boot h.super hi'] at htype
    refine ⟨hi, Nat.lt_of_not_le fun hge => htype ?_⟩
    rw [h.unused i (.inr hge)]
    rfl
  · rintro ⟨hi, hi'⟩
    have hlt := hi'.trans_le h.inodes.2
    refine ⟨hi, hlt, ?_⟩
    rw [inode_boot h.super hlt]
    exact h.kinds i hi hi'

theorem addr_boot (h : Built (dinodes s.image) s) (k : ℕ × ℕ) :
    (boot s.image).addr k = addrOf (dinodes s.image) s.image k := by
  by_cases hlive : (boot s.image).Live k.1
  · have hlt := ((live_boot_iff h).mp hlive).2.trans_le h.inodes.2
    rw [State.addr, if_pos hlive, inode_boot h.super hlt]
    rfl
  · have hunused : k.1 = 0 ∨ s.freeinode.toNat ≤ k.1 := by
      rw [live_boot_iff h] at hlive
      omega
    rw [State.addr, if_neg hlive, addrOf, h.unused _ hunused]
    exact (slot_zero ..).symm

theorem layout_sb : sb.Layout := ⟨by decide, by decide, by decide, by decide⟩

theorem bit_boot (hsuper : Superblock.ofBlock (s.image 1) = sb)
    (hmap : s.image sb.bmapstart = markFirst s.freeblock.toNat) {b : ℕ} (hb : b < FSSIZE) :
    (boot s.image).bit b = decide (b < s.freeblock.toNat) := by
  have hb' : b < sb.size.toNat := hb
  show bitSet (s.image ((Superblock.ofBlock (s.image 1)).bblock b)) _ = _
  rw [hsuper, layout_sb.bblock_eq hb', layout_sb.mod_BPB hb', hmap]
  exact bitSet_markFirst _ (hb.trans (by decide))

theorem mounted_boot (hsuper : Superblock.ofBlock (s.image 1) = sb) : Mounted (boot s.image) := by
  refine ⟨List.nodup_nil, rfl, ?_, fun k l hk => absurd hk (Nat.lt_irrefl 0),
    fun k hk => absurd hk (Nat.lt_irrefl 0)⟩
  show (Superblock.ofBlock (s.image 1)).Layout
  rw [hsuper]
  exact layout_sb

theorem Built.full_boot (h : Built (dinodes s.image) s) {i bn : ℕ} (hlive : (boot s.image).Live i)
    (hbn : bn * BSIZE < ((boot s.image).inode i).size.toNat) :
    (boot s.image).addr (i, blockSlot bn) ≠ 0 := by
  rw [inode_boot h.super (((live_boot_iff h).mp hlive).2.trans_le h.inodes.2)] at hbn
  rw [addr_boot h]
  exact h.full i bn hbn

theorem Built.wellFormed_boot (h : Built (dinodes s.image) s)
    (hmap : s.image sb.bmapstart = markFirst s.freeblock.toNat) : WellFormed (boot s.image) := by
  have hsb : (boot s.image).sb = sb := h.super
  have hstart : (boot s.image).sb.dataStart = nmeta := by
    rw [hsb]
    decide
  have hsize : (boot s.image).sb.size.toNat = FSSIZE := by
    rw [hsb]
    rfl
  refine ⟨mounted_boot h.super, ⟨?_, fun b hb => ?_⟩, fun i hlive _ bn hbn => h.full_boot hlive hbn⟩
  · rw [hstart, hsize]
    refine h.owned.congr (addr_boot h) fun b _ hb => ?_
    rw [bit_boot h.super hmap hb, decide_eq_true_iff]
  · rw [hstart] at hb
    rw [bit_boot h.super hmap (hb.trans (by decide)), decide_eq_true_iff]
    exact hb.trans_le h.range.1

theorem Built.imageOk (h : Built (dinodes s.image) s)
    (hmap : s.image sb.bmapstart = markFirst s.freeblock.toNat) : ImageOk s where
  range k hk := by
    rw [addr_boot h] at hk ⊢
    exact h.slot_range hk
  once k l hkl hk := by
    rw [addr_boot h] at hk
    rw [addr_boot h, addr_boot h] at hkl
    exact h.owned.inj k l hkl hk
  full i hlive bn hbn := h.full_boot hlive hbn
  inums := h.inodes.2
  bitmap b hb := by
    rw [hmap]
    exact bitSet_markFirst _ hb
  kernel := h.wellFormed_boot hmap

theorem Rooted.built_final {n : ℕ} (h : Rooted n s) (hn : ¬ 32 ∣ n) :
    Built (dinodes s.final.image) s.final := by
  have hb := h.settled.built
  have hroot : 1 ≤ ROOTINO ∧ ROOTINO < s.freeinode.toNat := ⟨le_rfl, h.some⟩
  have hsize := h.size
  have hle := hb.size_le ROOTINO
  rw [hsize] at hle
  have hold : Built (update (dinodes s.image) ROOTINO
      (sized (dinodes s.image ROOTINO) (DESIZE * n))) s := by
    rwa [← hsize, sized_self, update_eq_self]
  have hnew : Built (update (dinodes s.image) ROOTINO
      (sized (dinodes s.image ROOTINO) ((DESIZE * n / BSIZE + 1) * BSIZE))) s := by
    simp only [MAXFILE, BSIZE, DESIZE] at hle
    refine hold.resize hroot (by simp only [DESIZE, BSIZE]; omega) fun bn hbn => ?_
    refine hold.full ROOTINO bn ?_
    rw [update_self, sized, BitVec.toNat_ofNat]
    simp only [DESIZE, BSIZE] at hbn ⊢
    omega
  rw [← hsize] at hnew
  have hstored := hnew.store_built (by decide)
  rw [State.final, dinodes_write (by decide)]
  exact hstored.congr_write ⟨by decide, by decide⟩

theorem image_final_bitmap : s.final.image sb.bmapstart = markFirst s.final.freeblock.toNat :=
  image_write_self

theorem super_final {n : ℕ} (h : Rooted n s) : Superblock.ofBlock (s.final.image 1) = sb := by
  rw [State.final, image_write_of_ne (by decide), State.store, image_write_of_ne (by decide)]
  exact h.settled.built.super

theorem dinodes_final : dinodes s.final.image ROOTINO = sized (dinodes s.image ROOTINO)
    (((dinodes s.image ROOTINO).size.toNat / BSIZE + 1) * BSIZE) := by
  rw [State.final, dinodes_write (by decide), dinodes_store (by decide), update_self]

theorem Rooted.not_imageOk {n : ℕ} (h : Rooted n s) (hn : 32 ∣ n) (hle : n ≤ NINODES) :
    ¬ ImageOk s.final := by
  intro hok
  have hle : n ≤ 200 := hle
  have hinode := inode_boot (super_final h) (show ROOTINO < NINODES by decide)
  rw [dinodes_final, h.size] at hinode
  have hlive : (boot s.final.image).Live ROOTINO := by
    refine ⟨le_rfl, ?_, ?_⟩
    · show ROOTINO < (Superblock.ofBlock (s.final.image 1)).ninodes.toNat
      rw [super_final h]
      decide
    · rw [hinode]
      exact h.settled.built.kinds ROOTINO le_rfl h.some
  -- the rounded size covers block index n / 32, which no entry has reached
  refine hok.full ROOTINO hlive (n / 32) ?_ ?_
  · rw [hinode, sized, BitVec.toNat_ofNat]
    simp only [DESIZE, BSIZE]
    omega
  · have hreach : DESIZE * n ≤ n / 32 * BSIZE := by
      simp only [DESIZE, BSIZE]
      omega
    have hdirect : n / 32 < NDIRECT := by
      simp only [NDIRECT]
      omega
    have htight := h.settled.tight ROOTINO (n / 32) (by rwa [h.size])
    rw [addrOf, blockSlot, if_pos hdirect, slot_of_le hdirect.le] at htight
    rw [addr_of_live hlive, hinode, blockSlot, if_pos hdirect, slot_of_le hdirect.le]
    exact htight

end Kernel

section Inums

/-- Only `ialloc` moves the number of the next inode. -/
abbrev Steady {α : Type} (w : Word) (x : M α) : Prop :=
  Keeps (fun s => s.freeinode = w) (fun _ => True) x

variable {w : Word} {s : State}

theorem wsect_keeps (sec : Word) (buf : DiskBlock) :
    Steady w (wsect sec buf) :=
  keeps_modify fun _ h => h

theorem rsect_keeps (sec : Word) : Steady w (rsect sec) :=
  keeps_get.bind fun _ => .ite (keeps_pure _) (keeps_throw trivial)

theorem winode_keeps (inum : ℕ) (ip : Dinode) :
    Steady w (winode inum ip) :=
  (rsect_keeps _).bind fun _ => wsect_keeps _ _

theorem takeBlock_keeps : Steady w takeBlock :=
  fun _ hs => hs

theorem fillAddr_keeps (din : Dinode) (k : Fin (NDIRECT + 1)) :
    Steady w (fillAddr din k) :=
  .ite (takeBlock_keeps.bind fun _ => keeps_pure _) (keeps_pure _)

theorem iappendBlock_keeps (din : Dinode) (fbn : ℕ) :
    Steady w (iappendBlock din fbn) := by
  rw [iappendBlock]
  split_ifs
  · exact (fillAddr_keeps _ _).bind fun _ => keeps_pure _
  · exact (fillAddr_keeps _ _).bind fun _ => ((rsect_keeps _).bind fun _ => .ite (takeBlock_keeps.bind
      fun _ => (wsect_keeps _ _).bind fun _ => keeps_pure _) (keeps_pure _)).bind fun _ => keeps_pure _

theorem iappendLoop_keeps (p : Str) (fuel tot off n : ℕ) (din : Dinode) :
    Steady w (iappendLoop p fuel tot off n din) := by
  induction fuel generalizing tot off n din with
  | zero => exact keeps_pure _
  | succ fuel ih =>
    exact .ite (keeps_pure _) (.ite (keeps_throw trivial) ((iappendBlock_keeps _ _).bind fun _ =>
      (rsect_keeps _).bind fun _ => (wsect_keeps _ _).bind fun _ => ih _ _ _ _))

theorem iappend_keeps (inum : ℕ) (p : Str) (n : ℕ) :
    Steady w (iappend inum p n) :=
  ((rsect_keeps _).bind fun _ => keeps_pure _).bind fun _ =>
    (iappendLoop_keeps _ _ _ _ _ _).bind fun _ => winode_keeps _ _

theorem appendContents_keeps (inum fuel : ℕ) (data : List Byte) :
    Steady w (appendContents inum fuel data) := by
  induction fuel generalizing data with
  | zero => exact keeps_pure _
  | succ fuel ih => exact .ite (keeps_pure _) ((iappend_keeps _ _ _).bind fun _ => ih _)

theorem Steady.ends {α : Type} {x : M α} (h : Steady w x) (hs : s.freeinode = w) :
    Ends x s (fun _ s' => s'.freeinode = w) (fun _ _ => True) :=
  (h s hs).mono (fun _ _ h => h) fun _ _ _ => trivial

theorem ialloc_freeinode (type : Short) :
    Ends (ialloc type) s (fun _ s' => s'.freeinode = s.freeinode + 1) (fun _ _ => True) :=
  ends_get_bind (Ends.bind_of_eq rfl
    (Steady.ends ((winode_keeps _ _).bind fun _ => keeps_pure _) rfl))

theorem addFile_freeinode (rootino : ℕ) (f : Input) :
    Ends (addFile rootino f) s (fun _ s' => s'.freeinode = s.freeinode + 1) (fun _ _ => True) := by
  by_cases hslash : 0x2f ∈ f.name
  · rw [addFile, if_pos hslash]
    exact ends_throw trivial
  · rw [addFile, if_neg hslash]
    exact (ialloc_freeinode _).bind fun _ _ h =>
      Steady.ends ((iappend_keeps _ _ _).bind fun _ => appendContents_keeps _ _ _) h

theorem addFiles_freeinode (rootino : ℕ) (files : List Input) :
    Ends (addFiles rootino files) s
      (fun _ s' => s'.freeinode = s.freeinode + BitVec.ofNat 32 files.length) (fun _ _ => True) := by
  induction files generalizing s with
  | nil => exact ends_pure (BitVec.add_zero _).symm
  | cons f fs ih =>
    refine (addFile_freeinode rootino f).bind fun _ s₁ h₁ => ih.mono (fun _ s' h => ?_) fun _ _ h => h
    rw [h, h₁, List.length_cons]
    bv_omega

theorem mkfs_freeinode (files : List Input) :
    Ends (mkfs files) start (fun _ s' => s'.freeinode = BitVec.ofNat 32 (files.length + 2))
      (fun _ _ => True) := by
  refine (blank_returns rfl).ends.bind ?_
  rintro _ _ rfl
  refine Ends.bind_of_eq (wsect_run rfl (by decide)) ?_
  refine (ialloc_freeinode _).bind fun rootino s₁ h₁ => ?_
  split
  · exact ends_throw trivial
  refine (Steady.ends (iappend_keeps _ _ _) h₁).bind fun _ s₂ h₂ => ?_
  refine (Steady.ends (iappend_keeps _ _ _) h₂).bind fun _ s₃ h₃ => ?_
  refine (addFiles_freeinode rootino files).bind fun _ s₄ h₄ => ?_
  refine Steady.ends (((rsect_keeps _).bind fun _ => keeps_pure _).bind fun _ =>
    (winode_keeps _ _).bind fun _ => keeps_get.bind fun _ =>
      .ite (keeps_throw trivial) (wsect_keeps _ _)) ?_
  rw [h₄, h₃]
  show (1 : Word) + 1 + _ = _
  bv_omega

end Inums

theorem mkfs_imageOk_iff {files : List Input} {s : State} (hargc : files.length + 2 < 2 ^ 32)
    (hrun : (mkfs files).run start = .ok () s) :
    ImageOk s ↔ files.length + 2 ≤ NINODES ∧ ¬ 32 ∣ files.length + 2 := by
  constructor
  · intro hok
    have hn := hok.inums
    rw [(mkfs_freeinode files).of_ok hrun, BitVec.toNat_ofNat, Nat.mod_eq_of_lt hargc] at hn
    obtain ⟨s₁, h, rfl⟩ := (mkfs_ends hn).of_ok hrun
    exact ⟨hn, fun hdvd => h.rooted.not_imageOk hdvd hn hok⟩
  · rintro ⟨hn, hround⟩
    obtain ⟨s₁, h, rfl⟩ := (mkfs_ends hn).of_ok hrun
    exact (h.rooted.built_final hround).imageOk image_final_bitmap

theorem mkfs_returns {files : List Input} (h : Fits files) :
    Returns (mkfs files) start fun _ s' => ∃ s, Listed files s ∧ s' = s.final :=
  (mkfs_ends h.inodes).returns fun _ _ hE => hE h

theorem fits_nil : Fits [] :=
  ⟨fun f hf => absurd hf List.not_mem_nil, by decide, fun f hf => absurd hf List.not_mem_nil,
    by decide⟩

theorem mkfs_imageOk_empty : ∃ s, (mkfs []).run start = .ok () s ∧ ImageOk s := by
  obtain ⟨_, s, hrun, -⟩ := mkfs_returns fits_nil
  exact ⟨s, hrun, (mkfs_imageOk_iff (by decide) hrun).mpr (by decide)⟩

def thirtyFiles : List Input := (List.range 30).map fun k => ⟨[BitVec.ofNat 8 (0x61 + k)], []⟩

theorem fits_thirtyFiles : Fits thirtyFiles := by
  refine ⟨fun f hf => ?_, by decide, fun f hf => ?_, by decide⟩
  · obtain ⟨k, hk, rfl⟩ := List.mem_map.mp hf
    rw [List.mem_range] at hk
    rw [List.mem_singleton]
    interval_cases k <;> decide
  · obtain ⟨k, -, rfl⟩ := List.mem_map.mp hf
    exact Nat.zero_le _

theorem not_mkfs_imageOk_thirty :
    ∃ s, (mkfs thirtyFiles).run start = .ok () s ∧ ¬ ImageOk s := by
  obtain ⟨_, s', hrun, s, h, rfl⟩ := mkfs_returns fits_thirtyFiles
  exact ⟨s.final, hrun, h.rooted.not_imageOk (by decide) (by decide)⟩

end Xv6Prng.Mkfs
