import Xv6Prng.MkfsImage
import Xv6Prng.Paths

/-!
# The files of an image

The kernel looks up the files that `mkfs` was given and reads their contents. This needs less
than a well-formed image: if the entries of the root directory fill its last block, the rounded
size takes in a block that is not there, but the entries come before it.
-/

namespace Xv6Prng.Mkfs

open ByteWords Halting Fs FileSys BlockMap

section View

variable {s : State} {n : ℕ}

theorem image_final {b : ℕ} (hb : nmeta ≤ b) (hb' : b < FSSIZE) :
    s.final.image (BitVec.ofNat 32 b) = s.image (BitVec.ofNat 32 b) := by
  have hmap : BitVec.ofNat 32 b ≠ sb.bmapstart := by
    intro heq
    have hnat := congrArg BitVec.toNat heq
    rw [ofNat_toNat_of_lt hb'.le] at hnat
    rw [hnat] at hb
    exact absurd hb (by decide)
  rw [State.final, image_write_of_ne hmap]
  exact image_write_of_ne (ofNat_ne_iblock (by decide) hb hb')

theorem dinodes_final_of_ne {i : ℕ} (hi : i ≠ ROOTINO) :
    dinodes s.final.image i = dinodes s.image i := by
  rw [State.final, dinodes_write (by decide), dinodes_store (by decide), Function.update_of_ne hi]

theorem type_final (i : ℕ) : (dinodes s.final.image i).type = (dinodes s.image i).type := by
  by_cases hi : i = ROOTINO
  · rw [hi, dinodes_final]
    rfl
  · rw [dinodes_final_of_ne hi]

section Rooted

variable (h : Rooted n s)
include h

theorem Rooted.addrOf_final (k : ℕ × ℕ) :
    addrOf (dinodes s.final.image) s.final.image k = addrOf (dinodes s.image) s.image k := by
  have hb := h.settled.built
  have hsame := hb.addrOf_congr fun _ => image_final
  rw [← hsame, State.final, dinodes_write (by decide), dinodes_store (by decide), ← State.final,
    addrOf_sized (dinodes s.image ROOTINO).size.toNat, sized_self, Function.update_eq_self]

theorem Rooted.sb_final : (boot s.final.image).sb = sb := super_final h

theorem Rooted.inode_final {i : ℕ} (hi : i < NINODES) :
    (boot s.final.image).inode i = dinodes s.final.image i := inode_boot (super_final h) hi

theorem Rooted.live_final {i : ℕ} :
    (boot s.final.image).Live i ↔ 1 ≤ i ∧ i < s.freeinode.toNat := by
  have hb := h.settled.built
  rw [State.Live, h.sb_final, show sb.ninodes.toNat = NINODES from rfl]
  constructor
  · rintro ⟨hi, hi', htype⟩
    rw [h.inode_final hi', type_final] at htype
    refine ⟨hi, Nat.lt_of_not_le fun hge => htype ?_⟩
    rw [hb.unused i (.inr hge)]
    rfl
  · rintro ⟨hi, hi'⟩
    have hlt := hi'.trans_le hb.inodes.2
    refine ⟨hi, hlt, ?_⟩
    rw [h.inode_final hlt, type_final]
    exact hb.kinds i hi hi'

theorem Rooted.addr_final (k : ℕ × ℕ) :
    (boot s.final.image).addr k = addrOf (dinodes s.image) s.image k := by
  have hb := h.settled.built
  by_cases hlive : (boot s.final.image).Live k.1
  · have hlt := (h.live_final.mp hlive).2.trans_le hb.inodes.2
    rw [State.addr, if_pos hlive, h.inode_final hlt]
    exact h.addrOf_final k
  · have hunused : k.1 = 0 ∨ s.freeinode.toNat ≤ k.1 := by
      rw [h.live_final] at hlive
      omega
    rw [State.addr, if_neg hlive, addrOf, hb.unused _ hunused]
    exact (slot_zero ..).symm

theorem Rooted.byte_final {i k : ℕ}
    (hk : k < (dinodes s.image i).size.toNat) : (boot s.final.image).byte i k = s.byte i k := by
  have hb := h.settled.built
  obtain ⟨hlo, hhi⟩ := hb.slot_range (hb.addr_ne_zero hk)
  rw [FileSys.State.byte, h.addr_final]
  show byteAt (s.final.image _) _ = byteAt (s.image _) _
  rw [addrOf, image_final hlo hhi, BitVec.ofNat_toNat, BitVec.setWidth_eq]

theorem Rooted.owns_final : Owns ∅ (boot s.final.image) := by
  have hb := h.settled.built
  have hstart : (boot s.final.image).sb.dataStart = nmeta := by
    rw [h.sb_final]
    decide
  have hsize : (boot s.final.image).sb.size.toNat = FSSIZE := by
    rw [h.sb_final]
    rfl
  have hfree : s.final.freeblock = s.freeblock := rfl
  refine ⟨?_, fun b hlt => ?_⟩
  · rw [hstart, hsize]
    refine hb.owned.congr h.addr_final fun b _ hlt => ?_
    rw [bit_boot (super_final h) image_final_bitmap hlt, decide_eq_true_iff, hfree]
  · rw [hstart] at hlt
    rw [bit_boot (super_final h) image_final_bitmap (hlt.trans (by decide)), decide_eq_true_iff,
      hfree]
    exact hlt.trans_le hb.range.1

end Rooted

theorem idle_boot (image : Disk) : Idle (boot image) := fun _ => rfl

end View

section Root

variable {s : State} {files : List Input}

theorem Listed.size_final (h : Listed files s) :
    ((boot s.final.image).inode ROOTINO).size.toNat =
      (DESIZE * (files.length + 2) / BSIZE + 1) * BSIZE := by
  have hle := h.rooted.settled.built.size_le ROOTINO
  rw [h.rooted.size] at hle
  rw [h.rooted.inode_final (by decide), dinodes_final, h.rooted.size, sized]
  dsimp only
  rw [BitVec.toNat_ofNat, Nat.mod_eq_of_lt]
  simp only [MAXFILE, BSIZE, DESIZE] at hle ⊢
  omega

theorem Listed.listable (h : Listed files s) :
    Listable ROOTINO (files.length + 2) (boot s.final.image) where
  mounted := mounted_boot (super_final h.rooted)
  owns := h.rooted.owns_final
  live := h.rooted.live_final.mpr ⟨le_rfl, h.rooted.some⟩
  dir := by
    rw [h.rooted.inode_final (by decide), type_final]
    exact h.root.1
  size := by
    rw [h.size_final]
    simp only [BSIZE, DESIZE]
    omega
  max := h.rooted.size ▸ h.rooted.settled.built.size_le ROOTINO
  full k hk := by
    rw [h.rooted.addr_final]
    refine h.rooted.settled.built.addr_ne_zero ?_
    rw [h.rooted.size]
    exact Nat.mul_lt_mul_of_pos_left hk (by decide)

theorem Listed.dirent_final (h : Listed files s) {k : ℕ} (hk : k < files.length + 2) :
    (boot s.final.image).dirent ROOTINO k = s.entry k := by
  refine Dirent.ofBytes_congr fun j hj => h.rooted.byte_final ?_
  rw [h.rooted.size]
  simp only [DESIZE] at hj ⊢
  omega

def names (files : List Input) : List (List Byte) :=
  [0x2e] :: [0x2e, 0x2e] :: files.map fun f => nameOf (ofList f.stored) DIRSIZ

theorem Listed.key_final (h : Listed files s) {k : ℕ} (hk : k < files.length + 2) :
    (names files)[k]? = some ((boot s.final.image).dirent ROOTINO k).key := by
  rw [h.dirent_final hk]
  match k with
  | 0 =>
    rw [h.dots.1, Dirent.key_make]
    rfl
  | 1 =>
    rw [h.dots.2, Dirent.key_make]
    rfl
  | m + 2 =>
    have hm : m < files.length := by omega
    rw [h.entry m _ (List.getElem?_eq_getElem hm), Dirent.key_make]
    simp only [names, List.getElem?_cons_succ, List.getElem?_map, List.getElem?_eq_getElem hm,
      Option.map_some]

theorem Listed.slot_final (h : Listed files s) {m : ℕ} {f : Input} (hm : files[m]? = some f) :
    ((boot s.final.image).table ROOTINO).slot (m + 2) =
      some (nameOf (ofList f.stored) DIRSIZ, m + 2) := by
  have hlt : m < files.length := (List.getElem?_eq_some_iff.mp hm).1
  have hinodes : s.freeinode.toNat ≤ 200 := h.rooted.settled.built.inodes.2
  rw [h.freeinode] at hinodes
  have hentry := (h.dirent_final (show m + 2 < files.length + 2 by omega)).trans (h.entry m f hm)
  have hinum : (Dirent.make (ofList f.stored) (m + 2)).inum.toNat = m + 2 :=
    Nat.mod_eq_of_lt (by omega)
  refine slot_eq_some.mpr ⟨?_, ?_, ?_, ?_⟩
  · rw [FileSys.State.dirLen, h.size_final]
    simp only [BSIZE, DESIZE]
    omega
  · rw [hentry]
    intro h0
    rw [h0] at hinum
    exact absurd hinum.symm (Nat.succ_ne_zero _)
  · rw [hentry, Dirent.key_make]
  · rw [hentry, hinum]

end Root

structure Named (files : List Input) : Prop where
  text : ∀ f ∈ files, (0 : Byte) ∉ f.name
  nonempty : ∀ f ∈ files, f.stored.take DIRSIZ ≠ []
  distinct : files.Pairwise fun f g => f.stored.take DIRSIZ ≠ g.stored.take DIRSIZ
  dot : ∀ f ∈ files, f.stored.take DIRSIZ ≠ [0x2e]
  dotdot : ∀ f ∈ files, f.stored.take DIRSIZ ≠ [0x2e, 0x2e]

def fetch (cwd : Fin NINODE) (path : List Byte) : FileSys.M (Option (List Byte)) := do
  let r ← namei cwd path
  match r with
  | none => return none
  | some ip => do
    ilock ip
    let s ← get
    readi ip 0 (s.icache ip).copy.size

section Fetch

variable {s : State} {files : List Input} {f : Input} {elem : List Byte}

theorem Named.zero_notMem_stored (h : Named files) (hf : f ∈ files) : (0 : Byte) ∉ f.stored := by
  intro h0
  rw [Input.stored] at h0
  split_ifs at h0
  · exact h.text f hf (List.mem_of_mem_tail h0)
  · exact h.text f hf h0

theorem Named.nameOf_stored (h : Named files) (hf : f ∈ files) :
    nameOf (ofList f.stored) DIRSIZ = f.stored.take DIRSIZ :=
  nameOf_elemStr (h.zero_notMem_stored hf) DIRSIZ

theorem add_two_ne_root (m : ℕ) : m + 2 ≠ ROOTINO := by
  show m + 2 ≠ 1
  omega

theorem Named.nodup_names (h : Named files) : (names files).Nodup := by
  have hmap : (files.map fun f => nameOf (ofList f.stored) DIRSIZ) =
      files.map fun f => f.stored.take DIRSIZ :=
    List.map_congr_left fun f hf => h.nameOf_stored hf
  rw [names, hmap, List.nodup_cons, List.nodup_cons, List.mem_cons, List.mem_map, List.mem_map]
  refine ⟨?_, ?_, List.pairwise_map.mpr h.distinct⟩
  · rintro (heq | ⟨f, hf, heq⟩)
    · exact absurd heq (by decide)
    · exact h.dot f hf heq
  · rintro ⟨f, hf, heq⟩
    exact h.dotdot f hf heq

theorem Listed.contents_final (h : Listed files s) {m : ℕ} (hm : files[m]? = some f) :
    (boot s.final.image).contents (m + 2) = f.contents := by
  have hlt : m < files.length := (List.getElem?_eq_some_iff.mp hm).1
  have hinodes := h.rooted.settled.built.inodes.2
  rw [h.freeinode] at hinodes
  have hsize : ((boot s.final.image).inode (m + 2)).size.toNat = f.contents.length := by
    rw [h.rooted.inode_final (by omega), dinodes_final_of_ne (add_two_ne_root m), h.size m f hm]
  rw [FileSys.State.contents, hsize]
  refine List.ext_getElem (by simp) fun k hk hk' => ?_
  rw [List.getElem_map, List.getElem_range, h.rooted.byte_final (by rwa [h.size m f hm]),
    h.contents m f hm k hk', ofList, List.getD_eq_getElem _ _ hk']

theorem Listed.fetch_returns (h : Listed files s) (hnamed : Named files) {m : ℕ}
    (hm : files[m]? = some f) (hmax : f.contents.length ≤ MAXFILE * BSIZE)
    (helem : elem.take DIRSIZ = f.stored.take DIRSIZ) (hslash : slash ∉ elem) (cwd : Fin NINODE) :
    Returns (fetch cwd (slash :: elem)) (boot s.final.image) fun r _ => r = some f.contents := by
  have hf : f ∈ files := List.mem_of_getElem? hm
  have hlt : m < files.length := (List.getElem?_eq_some_iff.mp hm).1
  have hinodes := h.rooted.settled.built.inodes.2
  rw [h.freeinode] at hinodes
  have hname : nameOf (elemStr (elem.take DIRSIZ)) DIRSIZ = nameOf (ofList f.stored) DIRSIZ := by
    rw [helem]
    have hzero : (0 : Byte) ∉ f.stored.take DIRSIZ :=
      fun h0 => hnamed.zero_notMem_stored hf (List.mem_of_mem_take h0)
    rw [nameOf_elemStr hzero, List.take_take, Nat.min_self, hnamed.nameOf_stored hf]
  have hne : elem ≠ [] := by
    rintro rfl
    exact hnamed.nonempty f hf helem.symm
  have hslot := h.slot_final hm
  have hlive : (boot s.final.image).Live (m + 2) :=
    h.rooted.live_final.mpr ⟨by omega, by rw [h.freeinode]; omega⟩
  have hinode : (boot s.final.image).inode (m + 2) = dinodes s.image (m + 2) := by
    rw [h.rooted.inode_final (by omega), dinodes_final_of_ne (add_two_ne_root m)]
  refine (namei_root h.listable (idle_boot _) ?_ hne hslash (show m + 2 < files.length + 2 by omega)
    (hname.symm ▸ hslot) (fun l hl w hw => ?_) ⟨hlive.1, hlive.2.1⟩ cwd).bind ?_
  · rw [h.rooted.inode_final (by decide), dinodes_final, sized]
    dsimp only
    rw [h.root.2]
    decide
  · rw [hname] at hw
    have hl' : l < files.length + 2 := by omega
    have hkey := h.key_final hl'
    rw [(slot_eq_some.mp hw).2.2.1, ← (slot_eq_some.mp hslot).2.2.1] at hkey
    exact hl.ne ((List.getElem?_inj (by simp [names]; omega) hnamed.nodup_names).mp
      (hkey.trans (h.key_final (by omega)).symm))
  · rintro _ s' ⟨ip, rfl, hview, href, hbusy, hinum⟩
    have htype : (s'.inode (s'.icache ip).inum).type ≠ 0 := by
      rw [hinum, hview.inode]
      exact hlive.2.2
    refine Returns.bind_of_eq (ilock_run hview.mounted href hbusy htype) ?_
    have hlock := hview.trans (sameView_lock hview.mounted href)
    have hcopy : (s'.lock ip).icache ip = { s'.icache ip with
        busy := true, valid := true, copy := (boot s.final.image).inode (m + 2) } := by
      rw [State.lock, icache_putInode_self, hinum, hview.inode]
    have hholds : (s'.lock ip).Holds ip (m + 2) := by
      rw [FileSys.State.Holds, hcopy]
      exact ⟨href, rfl, hinum⟩
    have hsize : ((boot s.final.image).inode (m + 2)).size.toNat = f.contents.length := by
      rw [hinode, h.size m f hm]
    have hread := readi_inside_run hlock.mounted (hlock.owns h.rooted.owns_final) hholds
      (.inl (by rw [hlock.inode, hinode, h.kind m f hm])) 0
      ((boot s.final.image).inode (m + 2)).size ?_ ?_ ?_
    · rw [Returns, get_bind, hcopy]
      refine returns_of_eq hread (congrArg some ?_)
      rw [← h.contents_final hm, ← hlock.contents, FileSys.State.contents, hlock.inode]
      simp
    · rw [hlock.inode]
      simp
    · rw [hsize]
      simpa using hmax
    · intro k _ hk
      rw [hlock.addr, h.rooted.addr_final]
      refine h.rooted.settled.built.addr_ne_zero ?_
      rw [← hinode]
      simpa using hk

end Fetch

/-- If `mkfs` ends well, the kernel finds every file under its name and reads its contents. -/
theorem fetch_mkfs {files : List Input} (hinodes : files.length + 2 ≤ NINODES)
    (hmax : ∀ f ∈ files, f.contents.length ≤ MAXFILE * BSIZE) (hblocks : blocksUsed files ≤ FSSIZE)
    (hnamed : Named files) :
    Ends (mkfs files) start
      (fun _ s => ∀ f ∈ files, ∀ elem : List Byte, elem.take DIRSIZ = f.stored.take DIRSIZ →
        slash ∉ elem → ∀ cwd,
          Returns (fetch cwd (slash :: elem)) (boot s.image) fun r _ => r = some f.contents)
      (fun _ _ => ∃ f ∈ files, slash ∈ f.name) := by
  refine (mkfs_ends hinodes).mono ?_ fun _ _ hnot => ?_
  · rintro _ _ ⟨s, h, rfl⟩ f hf elem helem hslash cwd
    obtain ⟨m, hm⟩ := List.mem_iff_getElem?.mp hf
    exact h.fetch_returns hnamed hm (hmax f hf) helem hslash cwd
  · by_contra hnone
    exact hnot ⟨fun f hf hslash => hnone ⟨f, hf, hslash⟩, hinodes, hmax, hblocks⟩

def twoFiles : List Input := [⟨[0x5f, 0x61], [7]⟩, ⟨[0x62], List.replicate 600 9⟩]

theorem fits_twoFiles : Fits twoFiles :=
  ⟨by decide, by decide, by decide +kernel, by decide +kernel⟩

theorem named_twoFiles : Named twoFiles :=
  ⟨by decide, by decide, by decide, by decide, by decide⟩

/-- The second file needs two blocks. -/
theorem fetch_mkfs_twoFiles : ∃ s, (mkfs twoFiles).run start = .ok () s ∧
    (Returns (fetch 0 [0x2f, 0x61]) (boot s.image) fun r _ => r = some [7]) ∧
    Returns (fetch 0 [0x2f, 0x62]) (boot s.image) fun r _ => r = some (List.replicate 600 9) := by
  obtain ⟨_, s, hrun, -⟩ := mkfs_returns fits_twoFiles
  have hfetch := (fetch_mkfs fits_twoFiles.inodes fits_twoFiles.maxfile fits_twoFiles.blocks
    named_twoFiles).of_ok hrun
  exact ⟨s, hrun, hfetch _ List.mem_cons_self [0x61] rfl (by decide) 0,
    hfetch _ (List.mem_cons_of_mem _ List.mem_cons_self) [0x62] rfl (by decide) 0⟩

end Xv6Prng.Mkfs
