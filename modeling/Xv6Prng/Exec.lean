import Xv6Prng.FileBytes
import Xv6Prng.GrowProc

/-!
# The image that `exec` loads

The program headers of a file are not trusted: segments may overlap, come in any order, wrap
around and lie about the file. `exec` grows the new space to the end of each segment and reads
the segment's part of the file into it. No panic of `vm.c` is reached, and a byte of the image is
that of the last segment that covers it, or zero. Above come a guard page and the stack.

A file is the list of its bytes, and the directory is that of `setupkvm`; arguments are left out.
-/

namespace Xv6Prng.UserSpace.Exec

open ByteWords Halting Function

abbrev ELF_MAGIC : Word := 0x464C457F
abbrev ELF_PROG_LOAD : Word := 1

def wordAt (b : List Byte) (i : ℕ) : Word :=
  ofBytes (b.getD i 0) (b.getD (i + 1) 0) (b.getD (i + 2) 0) (b.getD (i + 3) 0)

structure Elfhdr where
  magic : Word
  phoff : Word
  phnum : ℕ

def Elfhdr.decode (b : List Byte) : Elfhdr :=
  ⟨wordAt b 0, wordAt b 28, (b.getD 44 0).toNat + 256 * (b.getD 45 0).toNat⟩

structure Proghdr where
  type : Word
  off : Word
  vaddr : Word
  filesz : Word
  memsz : Word

def Proghdr.decode (b : List Byte) : Proghdr :=
  ⟨wordAt b 0, wordAt b 4, wordAt b 8, wordAt b 16, wordAt b 20⟩

/-- `readi` of a file or directory; nothing stands for -1. -/
def readi (file : List Byte) (off n : Word) : Option (List Byte) :=
  if off.toNat > file.length ∨ off + n < off then none
  else some ((file.drop off.toNat).take n.toNat)

theorem readi_run {fs : FileSys.State} {ip : Fin FileSys.NINODE} {i : ℕ}
    (h : FileSys.WellFormed fs) (hip : fs.Holds ip i) (hfile : (fs.inode i).IsFile) (off n : Word) :
    (FileSys.readi ip off n).run fs = .ok (readi (fs.contents i) off n) fs := by
  rw [FileSys.readi_run h hip hfile, FileSys.readBytes, readi]
  simp only [gt_iff_lt, FileSys.toNat_add_lt_iff]

/-- The loop of `loaduvm` from the page `i` of the segment on. -/
def loaduvmLoop (file : List Byte) (d : PgDir) (v : ℕ) (offset : Word) (sz : ℕ) : ℕ → ℕ → M Bool
  | 0, _ => pure true
  | fuel + 1, i => do
    match ← walkpgdir d (v + i) false with
    | none => throw (.panic "loaduvm: address should exist")
    | some d =>
      let n := min PGSIZE (sz - i * PGSIZE)
      match readi file (offset + BitVec.ofNat 32 (i * PGSIZE)) (BitVec.ofNat 32 n) with
      | none => pure false
      | some bytes => do
        memmove (d.pte (v + i)).frame 0 bytes
        if bytes.length = n then loaduvmLoop file d v offset sz fuel (i + 1) else pure false

def loaduvm (file : List Byte) (d : PgDir) (addr offset sz : Word) : M Bool :=
  if addr.toNat % PGSIZE ≠ 0 then throw (.panic "loaduvm: addr must be page aligned")
  else loaduvmLoop file d (addr.toNat / PGSIZE) offset sz.toNat (pages sz.toNat) 0

/-- The body of the loop over the headers: the directory, and the size unless it is `bad`. -/
def loadSegment (L : Layout) (file : List Byte) (ph : Proghdr) (d : PgDir) (sz : ℕ) :
    M (PgDir × Option ℕ) :=
  if ph.type ≠ ELF_PROG_LOAD then pure (d, some sz)
  else if ph.memsz < ph.filesz then pure (d, none)
  else if ph.vaddr + ph.memsz < ph.vaddr then pure (d, none)
  else do
    let r ← allocuvm L d sz (ph.vaddr + ph.memsz).toNat
    if r.2 = 0 then pure (r.1, none)
    else if ph.vaddr.toNat % PGSIZE ≠ 0 then pure (r.1, none)
    else do
      let ok ← loaduvm file r.1 ph.vaddr ph.off ph.filesz
      pure (r.1, if ok then some r.2 else none)

def loadSegments (L : Layout) (file : List Byte) : ℕ → Word → PgDir → ℕ → M (PgDir × Option ℕ)
  | 0, _, d, sz => pure (d, some sz)
  | n + 1, off, d, sz =>
    match readi file off 32 with
    | none => pure (d, none)
    | some b =>
      if b.length ≠ 32 then pure (d, none)
      else do
        let r ← loadSegment L file (.decode b) d sz
        match r.2 with
        | none => pure (r.1, none)
        | some sz => loadSegments L file n (off + 32) r.1 sz

def clearpteu (d : PgDir) (v : ℕ) : M PgDir := do
  match ← walkpgdir d v false with
  | none => throw (.panic "clearpteu")
  | some d => pure (d.setPte v { d.pte v with flags := (d.pte v).flags &&& ~~~PTE_U })

/-- The header that `exec` reads. A read at offset 0 does not fail. -/
def elfhdr (file : List Byte) : Elfhdr := .decode ((readi file 0 52).getD [])

/-- `exec` from its header to the stack: the directory, and the size unless it is `bad`. -/
def loadImage (L : Layout) (file : List Byte) (d : PgDir) : M (PgDir × Option ℕ) :=
  if ((readi file 0 52).getD []).length < 52 then pure (d, none)
  else if (elfhdr file).magic ≠ ELF_MAGIC then pure (d, none)
  else do
    let r ← loadSegments L file (elfhdr file).phnum (elfhdr file).phoff d 0
    match r.2 with
    | none => pure (r.1, none)
    | some sz => do
      let sz := pages sz * PGSIZE
      let r ← allocuvm L r.1 sz (sz + 2 * PGSIZE)
      if r.2 = 0 then pure (r.1, none)
      else do
        let d ← clearpteu r.1 (r.2 / PGSIZE - 2)
        pure (d, some r.2)

def Proghdr.Covers (ph : Proghdr) (a : ℕ) : Prop :=
  ph.type = ELF_PROG_LOAD ∧ ph.vaddr.toNat ≤ a ∧ a < ph.vaddr.toNat + ph.filesz.toNat

instance (ph : Proghdr) (a : ℕ) : Decidable (ph.Covers a) := inferInstanceAs (Decidable (_ ∧ _))

def headers (file : List Byte) : ℕ → Word → List Proghdr
  | 0, _ => []
  | n + 1, off => .decode ((readi file off 32).getD []) :: headers file n (off + 32)

def phdrs (file : List Byte) : List Proghdr := headers file (elfhdr file).phnum (elfhdr file).phoff

/-- The byte of the last segment whose part of the file covers the address. -/
def imageByte (file : List Byte) (phs : List Proghdr) (a : ℕ) : Byte :=
  phs.foldl (fun b ph => if ph.Covers a then
    file.getD (ph.off + BitVec.ofNat 32 (a - ph.vaddr.toNat)).toNat 0 else b) 0

/-- The pages below `sz` hold the image of the segments, and the pages that are free or in the
directory are those of the beginning. -/
structure Loaded (L : Layout) (file : List Byte) (phs : List Proghdr) (x : Multiset PageNo)
    (d : PgDir) (sz : ℕ) (s : Machine) : Prop where
  size : sz ≤ KERNBASE * PGSIZE
  below : MapsBelow d (pages sz)
  sound : Sound L d s
  total : s.pool.free + d.owned = x
  flags : ∀ v < pages sz, (d.pte v).flags = PTE_W ||| PTE_U ||| PTE_P
  bytes : ∀ v < pages sz, ∀ o : Fin PGSIZE,
    s.mem (d.pte v).frame o = imageByte file phs (v * PGSIZE + o)
  above : ∀ a, sz ≤ a → imageByte file phs a = 0

/-- What a part of `exec` leaves: no page is lost, and unless it is `bad` there is `Q`. -/
def Leaves (x : Multiset PageNo) (Q : PgDir → ℕ → Machine → Prop) (r : PgDir × Option ℕ)
    (s : Machine) : Prop :=
  s.pool.free + r.1.owned = x ∧ ∀ sz, r.2 = some sz → Q r.1 sz s

section Load

variable {L : Layout} {file : List Byte} {phs : List Proghdr} {x : Multiset PageNo} {d : PgDir}
  {s : Machine} {sz k v i : ℕ} {offset : Word} {Q : PgDir → ℕ → Machine → Prop}

theorem Loaded.allocuvm (h : Loaded L file phs x d sz s) (newsz : ℕ) :
    Returns (allocuvm L d sz newsz) s fun r s' => s'.pool.free + r.1.owned = x ∧
      (r.2 ≠ 0 → r.2 = max sz newsz ∧ Loaded L file phs x r.1 r.2 s') := by
  rw [UserSpace.allocuvm]
  split_ifs with hbig hless
  · exact returns_pure ⟨h.total, fun h0 => absurd rfl h0⟩
  · exact returns_pure ⟨h.total, fun _ => ⟨(max_eq_left hless.le).symm, h⟩⟩
  · rw [not_le] at hbig
    rw [not_lt] at hless
    have hpages := pages_mono hless
    have htotal {m a : ℕ} {d' : PgDir} {s' : Machine} (hholds : Holds d s 0 m a d' s') :
        s'.pool.free + d'.owned = s.pool.free + d.owned := by rw [← hholds.total, add_zero]
    refine (Holds.allocLoop h.sound hbig rfl le_rfl (by omega) (Holds.refl h.below _ s)
      fun v hv hv' => by omega).mono fun r s' hr => ?_
    rcases hr with ⟨hsize, hholds, hzero⟩ | ⟨hfail, hholds⟩
    · refine ⟨(htotal hholds).trans h.total, fun _ => ?_⟩
      rw [hsize]
      refine ⟨(max_eq_right hless).symm, hbig.le, hholds.below,
        ⟨htotal hholds ▸ h.sound.nodup, htotal hholds ▸ h.sound.freeable⟩,
        (htotal hholds).trans h.total, fun v hv => ?_, fun v hv o => ?_,
        fun a ha => h.above a (hless.trans ha)⟩
      all_goals by_cases hlow : v < pages sz
      · rw [(hholds.kept v hlow).1, h.flags v hlow]
      · exact (hzero v (not_lt.mp hlow) hv).1
      · rw [(hholds.kept v hlow).1, (hholds.kept v hlow).2, h.bytes v hlow]
      · rw [(hzero v (not_lt.mp hlow) hv).2, h.above]
        simp only [pages, PGSIZE] at hlow ⊢
        omega
    · exact ⟨(htotal hholds).trans h.total, fun h0 => absurd hfail h0⟩

/-- A page is written in its own frame, and no other page has that frame. -/
theorem memmove_apply (hs : Sound L d s) (hbelow : MapsBelow d k) (hk : k ≤ KERNBASE) {u : ℕ}
    (hu : u < k) (hv : v < k) (bytes : List Byte) (o : Fin PGSIZE) :
    update s.mem (d.pte u).frame ((s.mem (d.pte u).frame).write 0 bytes) (d.pte v).frame o =
      if v = u ∧ o < bytes.length then bytes.getD o 0 else s.mem (d.pte v).frame o := by
  by_cases hvu : v = u
  · subst hvu
    rw [update_self, Page.write]
    simp only [Nat.zero_le, Nat.sub_zero, true_and]
    split_ifs with hlt
    · rw [List.getD_eq_getElem _ _ hlt, List.get_eq_getElem]
    · rfl
  · rw [if_neg fun h => hvu h.1, update_of_ne fun heq => hvu ?_]
    exact frame_injective (Multiset.nodup_add.mp hs.nodup).2.1 (by omega) (by omega)
      ((hbelow v (by omega)).mpr hv) ((hbelow u (by omega)).mpr hu) heq

theorem readi_getD {off n : Word} {bytes : List Byte} (h : readi file off n = some bytes)
    {j : ℕ} (hj : j < n.toNat) : bytes.getD j 0 = file.getD (off + BitVec.ofNat 32 j).toNat 0 := by
  rw [readi] at h
  split_ifs at h with hbad
  have hadd : (off + BitVec.ofNat 32 j).toNat = off.toNat + j := by
    rw [not_or, BitVec.lt_def, BitVec.toNat_add] at hbad
    rw [BitVec.toNat_add, BitVec.toNat_ofNat]
    omega
  rw [← Option.some.inj h, hadd, List.getD_eq_getElem?_getD, List.getD_eq_getElem?_getD,
    List.getElem?_take_of_lt hj, List.getElem?_drop]

theorem loaduvmLoop_returns (hbelow : MapsBelow d k) (hk : k ≤ KERNBASE) (hsz : v + pages sz ≤ k)
    {n : ℕ} (hn : i + n = pages sz) (hs : Sound L d s) :
    Returns (loaduvmLoop file d v offset sz n i) s fun ok s' => s'.pool = s.pool ∧
      (ok = true → ∀ u < k, ∀ o : Fin PGSIZE, s'.mem (d.pte u).frame o =
        if (v + i) * PGSIZE ≤ u * PGSIZE + o ∧ u * PGSIZE + o < v * PGSIZE + sz then
          file.getD (offset + BitVec.ofNat 32 (u * PGSIZE + o - v * PGSIZE)).toNat 0
        else s.mem (d.pte u).frame o) := by
  have hpages : pages sz = (sz + 4095) / 4096 := rfl
  induction n generalizing i s with
  | zero =>
    refine returns_pure ⟨rfl, fun _ u _ o => ?_⟩
    rw [if_neg]
    simp only [PGSIZE]
    omega
  | succ n ih =>
    have hpresent : (d.pte (v + i)).Present := (hbelow _ (by omega)).mpr (by omega)
    obtain ⟨t, ht⟩ := Option.isSome_iff_exists.mp (PgDir.hasTable_of_present hpresent)
    rw [loaduvmLoop, walkpgdir, ht, pure_bind]
    dsimp only
    split
    · exact returns_pure ⟨rfl, fun h => by cases h⟩
    · rename_i bytes hread
      refine returns_modify_bind ?_
      split_ifs with hlen
      · have hs' (mem : PageNo → Page) : Sound L d { s with mem := mem } := ⟨hs.nodup, hs.freeable⟩
        refine (ih (i := i + 1) (by omega) (hs' _)).mono fun ok s' hr =>
          ⟨hr.1, fun hok u hu o => ?_⟩
        rw [hr.2 hok u hu o]
        dsimp only
        rw [memmove_apply hs hbelow hk (by omega) hu bytes o, hlen]
        have ho := o.isLt
        simp only [PGSIZE] at ho hread ⊢
        by_cases hui : u = v + i
        · have hoff : u * 4096 + o - v * 4096 = i * 4096 + o := by omega
          rw [if_neg (by omega), hoff, BitVec.ofNat_add, ← BitVec.add_assoc]
          refine if_ctx_congr (by omega) (fun hlt => readi_getD hread ?_) fun _ => rfl
          rw [BitVec.toNat_ofNat]
          omega
        · exact if_congr (by omega) rfl (if_neg fun h => hui h.1)
      · exact returns_pure ⟨rfl, fun h => by cases h⟩

theorem returns_bad (h : s.pool.free + d.owned = x) :
    Returns (pure (d, none) : M _) s (Leaves x Q) :=
  returns_pure ⟨h, fun _ hsz => by cases hsz⟩

theorem Loaded.returns (h : Loaded L file phs x d sz s) :
    Returns (pure (d, some sz) : M _) s (Leaves x (Loaded L file phs x)) :=
  returns_pure ⟨h.total, fun _ hsz => by cases hsz; exact h⟩

theorem Loaded.segment (h : Loaded L file phs x d sz s) (ph : Proghdr) :
    Returns (loadSegment L file ph d sz) s (Leaves x (Loaded L file (phs ++ [ph]) x)) := by
  have himage (a : ℕ) : imageByte file (phs ++ [ph]) a = if ph.Covers a then
      file.getD (ph.off + BitVec.ofNat 32 (a - ph.vaddr.toNat)).toNat 0
      else imageByte file phs a := List.foldl_append ..
  rw [loadSegment]
  split_ifs with htype hmem hwrap halign
  · have hsame (a : ℕ) : imageByte file (phs ++ [ph]) a = imageByte file phs a := by
      rw [himage, if_neg fun hc => htype hc.1]
    exact Loaded.returns ⟨h.size, h.below, h.sound, h.total, h.flags,
      fun v hv o => (h.bytes v hv o).trans (hsame _).symm, fun a ha => (hsame a).trans (h.above a ha)⟩
  · exact returns_bad h.total
  · exact returns_bad h.total
  · refine (h.allocuvm _).bind fun r s₁ hr => ?_
    split_ifs
    all_goals exact returns_bad hr.1
  · refine (h.allocuvm _).bind fun r s₁ hr => ?_
    obtain ⟨htotal, hr⟩ := hr
    split_ifs with hzero
    · exact returns_bad htotal
    obtain ⟨hmax, h₁⟩ := hr hzero
    rw [not_not] at halign htype
    -- the end of the segment does not wrap around, and the space has just been grown to it
    have hend : ph.vaddr.toNat + ph.filesz.toNat ≤ r.2 := by
      rw [BitVec.lt_def] at hmem hwrap
      rw [BitVec.toNat_add] at hwrap hmax
      omega
    have hfits : ph.vaddr.toNat / PGSIZE + pages ph.filesz.toNat ≤ pages r.2 := by
      simp only [pages, PGSIZE] at halign ⊢
      omega
    rw [loaduvm, if_neg (not_not.mpr halign)]
    refine (loaduvmLoop_returns h₁.below (pages_le h₁.size) hfits (Nat.zero_add _)
      h₁.sound).bind fun ok s₂ hload => ?_
    obtain ⟨hpool, hbytes⟩ := hload
    have htotal₂ : s₂.pool.free + r.1.owned = x := by rw [hpool, h₁.total]
    cases ok with
    | false => exact returns_bad htotal₂
    | true =>
      refine Loaded.returns ⟨h₁.size, h₁.below, ⟨hpool ▸ h₁.sound.nodup, hpool ▸ h₁.sound.freeable⟩,
        htotal₂, h₁.flags, fun v hv o => ?_, fun a ha => ?_⟩
      · rw [hbytes rfl v hv, h₁.bytes v hv, himage, Nat.add_zero,
          Nat.div_mul_cancel (Nat.dvd_of_mod_eq_zero halign)]
        exact if_congr (by simp [Proghdr.Covers, htype]) rfl rfl
      · rw [himage, if_neg fun hc => by have := hc.2.2; omega]
        exact h₁.above a ha

theorem Loaded.segments (h : Loaded L file phs x d sz s) (n : ℕ) (off : Word) :
    Returns (loadSegments L file n off d sz) s
      (Leaves x (Loaded L file (phs ++ headers file n off) x)) := by
  induction n generalizing phs off d sz s with
  | zero =>
    rw [headers, List.append_nil]
    exact h.returns
  | succ n ih =>
    rw [loadSegments]
    cases hread : readi file off 32 with
    | none => exact returns_bad h.total
    | some b =>
      dsimp only
      split_ifs
      · exact returns_bad h.total
      · refine (h.segment (.decode b)).bind fun r s₁ hr => ?_
        cases hsz : r.2 with
        | none => exact returns_bad hr.1
        | some sz₁ =>
          have hnext := ih (hr.2 sz₁ hsz) (off + 32)
          rw [List.append_assoc] at hnext
          rw [headers, hread]
          exact hnext

theorem clearpteu_run (hv : v < KERNBASE)
    (hflags : (d.pte v).flags = PTE_W ||| PTE_U ||| PTE_P) :
    (clearpteu d v).run s = .ok (d.setPte v ⟨(d.pte v).frame, PTE_W ||| PTE_P⟩) s ∧
      (d.setPte v ⟨(d.pte v).frame, PTE_W ||| PTE_P⟩).owned = d.owned := by
  have hpresent : (d.pte v).Present := by
    rw [Pte.Present, hflags]
    decide
  have htable := PgDir.hasTable_of_present hpresent
  obtain ⟨t, ht⟩ := Option.isSome_iff_exists.mp htable
  have hrun : (clearpteu d v).run s =
      .ok (d.setPte v { d.pte v with flags := (d.pte v).flags &&& ~~~PTE_U }) s := by
    rw [clearpteu, walkpgdir, ht]
    rfl
  have hclear : (PTE_W ||| PTE_U ||| PTE_P) &&& ~~~PTE_U = PTE_W ||| PTE_P := by decide
  rw [hflags, hclear] at hrun
  refine ⟨hrun, ?_⟩
  have howned := PgDir.owned_setPte (e := ⟨(d.pte v).frame, PTE_W ||| PTE_P⟩) htable hv
  rw [mapped_of_present hpresent, mapped_of_present (present_or _ PTE_W)] at howned
  exact add_right_cancel howned

theorem Loaded.roundUp (h : Loaded L file phs x d sz s) :
    Loaded L file phs x d (pages sz * PGSIZE) s := by
  have hpages : pages (pages sz * PGSIZE) = pages sz ∧ sz ≤ pages sz * PGSIZE := by
    simp only [pages, PGSIZE]
    omega
  refine ⟨Nat.mul_le_mul_right _ (pages_le h.size), ?_, h.sound, h.total, ?_, ?_,
    fun a ha => h.above a (hpages.2.trans ha)⟩
  all_goals rw [hpages.1]
  exacts [h.below, h.flags, h.bytes]

/-- The segments are loaded, with zeros from `img` on, where the stack begins: the page at `img`
is closed to the user and the next one is open. -/
def Image (L : Layout) (file : List Byte) (x : Multiset PageNo) (d : PgDir) (sz : ℕ) (s : Machine) :
    Prop :=
  52 ≤ file.length ∧ (elfhdr file).magic = ELF_MAGIC ∧
    ∃ img d', sz = pages img * PGSIZE + 2 * PGSIZE ∧
    d = d'.setPte (pages img) ⟨(d'.pte (pages img)).frame, PTE_W ||| PTE_P⟩ ∧
    Loaded L file (phdrs file) x d' sz s ∧ ∀ a, img ≤ a → imageByte file (phdrs file) a = 0

theorem loadImage_returns (L : Layout) (file : List Byte) (d : PgDir) (s : Machine)
    (hs : Sound L d s) (hd : MapsBelow d 0) : Returns (loadImage L file d) s
      (Leaves (s.pool.free + d.owned) (Image L file (s.pool.free + d.owned))) := by
  rw [loadImage]
  split_ifs with hlen hmagic
  · exact returns_bad rfl
  · exact returns_bad rfl
  have h₀ : Loaded L file [] (s.pool.free + d.owned) d 0 s :=
    ⟨Nat.zero_le _, hd, hs, rfl, fun v hv => absurd hv (Nat.not_lt_zero v),
      fun v hv => absurd hv (Nat.not_lt_zero v), fun _ _ => rfl⟩
  refine (h₀.segments _ _).bind fun r s₁ hr => ?_
  cases hsz : r.2 with
  | none => exact returns_bad hr.1
  | some img =>
    have h₁ := hr.2 img hsz
    refine (h₁.roundUp.allocuvm _).bind fun r₂ s₂ hr₂ => ?_
    split_ifs with hzero
    · exact returns_bad hr₂.1
    obtain ⟨hmax, h₂⟩ := hr₂.2 hzero
    rw [max_eq_right (Nat.le_add_right _ _)] at hmax
    have hguard : r₂.2 / PGSIZE - 2 = pages img ∧ pages r₂.2 = pages img + 2 := by
      rw [hmax]
      simp only [pages, PGSIZE]
      omega
    have hle := pages_le h₂.size
    obtain ⟨hrun, howned⟩ := clearpteu_run (s := s₂) (by omega : pages img < KERNBASE)
      (h₂.flags _ (by omega))
    rw [hguard.1]
    refine Returns.bind_of_eq hrun (returns_pure ⟨howned ▸ h₂.total, fun sz hsz => ?_⟩)
    cases hsz
    exact ⟨by simpa [readi] using hlen, not_not.mp hmagic, img, r₂.1, hmax, rfl, h₂, h₁.above⟩

end Load

/-- One header at 52, for two bytes at 84 that go to the address 0, in a segment of eight. -/
def smallElf : List Byte :=
  [0x7f, 0x45, 0x4c, 0x46] ++ List.replicate 24 0 ++ [52] ++ List.replicate 15 0 ++ [1] ++
    List.replicate 7 0 ++ [1, 0, 0, 0, 84, 0, 0, 0] ++ List.replicate 8 0 ++
    [2, 0, 0, 0, 8, 0, 0, 0] ++ List.replicate 8 0 ++ [0x11, 0x22]

def bare : PgDir := ⟨0x600, fun _ => none⟩

def fourFree : Machine := { emptyMachine with pool := ⟨[0x700, 0x701, 0x702, 0x703], []⟩ }

theorem loadImage_returns_smallElf :
    Returns (loadImage someLayout smallElf bare) fourFree fun r s' =>
      (r.2 = some 0x3000 ∧ s'.mem (r.1.pte 0).frame 1 = 0x22) ∧
      s'.pool.free + r.1.owned = fourFree.pool.free + bare.owned := by
  have hrun : Returns (loadImage someLayout smallElf bare) fourFree fun r s' =>
      r.2 = some 0x3000 ∧ s'.mem (r.1.pte 0).frame 1 = 0x22 :=
    (returns_of_returnsWith (p := fun r s' => r.2 = some 0x3000 ∧
      s'.mem (r.1.pte 0).frame 1 = 0x22) (by decide +kernel)).mono fun r s' h => of_decide_eq_true h
  have howned : bare.owned = {0x600} := by
    rw [PgDir.owned_eq]
    simp [PgDir.tablePage, PgDir.pte, onePage, bare]
  have hsound : Sound someLayout bare fourFree := by
    refine ⟨by rw [howned]; decide, fun p hp => ?_⟩
    rw [howned] at hp
    have hmem : p ∈ [0x700, 0x701, 0x702, 0x703, 0x600] := hp
    rw [Freeable]
    fin_cases hmem <;> decide
  have hbelow : MapsBelow bare 0 := fun v _ =>
    iff_of_false (show ¬ Pte.zero.Present by decide) (Nat.not_lt_zero v)
  have hloads := loadImage_returns someLayout smallElf bare fourFree hsound hbelow
  exact (hrun.and_ends (hloads.ends (E := fun _ _ => True))).mono fun r s' h => ⟨h.1, h.2.1⟩

end Xv6Prng.UserSpace.Exec
