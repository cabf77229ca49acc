import Xv6Prng.InodeCache
import Xv6Prng.DirEntry
import Xv6Prng.Library.SlotTable
import Xv6Prng.Library.Runs

/-!
# Directories

The contents of a directory are entries of sixteen bytes. An entry whose inode number is zero is
free; the others bind a name to an inode number, so that a directory without two entries of the
same name is a finite map. `dirlookup` reads the map, `dirlink` adds a binding in the first free
entry or at the end, and `unlink` overwrites an entry with zeros.
-/

namespace Xv6Prng.FileSys

open ByteWords Halting Fs BlockMap SlotTable Runs

/-- `if(readi(dp, (char*)&de, off, sizeof(de)) != sizeof(de)) panic(msg)` -/
def readDirent (msg : String) (ip : Fin NINODE) (off : ℕ) : M Dirent := do
  let r ← readi ip (BitVec.ofNat 32 off) (BitVec.ofNat 32 DESIZE)
  match r with
  | none => throw (.panic msg)
  | some bytes =>
    if bytes.length ≠ DESIZE then throw (.panic msg)
    else return .ofBytes fun k => bytes.getD k 0

/-- `if(writei(dp, (char*)&de, off, sizeof(de)) != sizeof(de)) panic(msg)` -/
def writeDirent (msg : String) (ip : Fin NINODE) (off : ℕ) (de : Dirent) : M Unit := do
  let r ← writei ip de.bytes (BitVec.ofNat 32 off) (BitVec.ofNat 32 DESIZE)
  if r ≠ some DESIZE then throw (.panic msg) else return ()

/-- The loop `for(; off < dp->size; off += sizeof(de))` over the entries: the offset at which it
ends, and the entry that made it stop. -/
def scan (msg : String) (stop : Dirent → Bool) (ip : Fin NINODE) : ℕ → ℕ → M (ℕ × Option Dirent)
  | 0, off => return (off, none)
  | fuel + 1, off => do
    let s ← get
    if (s.icache ip).copy.size.toNat ≤ off then return (off, none)
    else do
      let de ← readDirent msg ip off
      if stop de then return (off, some de) else scan msg stop ip fuel (off + DESIZE)

def Dirent.named (name : Str) (de : Dirent) : Bool := de.inum ≠ 0 ∧ namecmp name de.str = 0

def dirlookup (dp : Fin NINODE) (name : Str) : M (Option (Fin NINODE × ℕ)) := do
  let s ← get
  if (s.icache dp).copy.type ≠ T_DIR then throw (.panic "dirlookup not DIR")
  else do
    let r ← scan "dirlink read" (Dirent.named name) dp (s.icache dp).copy.size.toNat 0
    match r.2 with
    | none => return none
    | some de => do
      let ip ← iget de.inum.toNat
      return some (ip, r.1)

def dirlink (dp : Fin NINODE) (name : Str) (inum : ℕ) : M ℤ := do
  let r ← dirlookup dp name
  match r with
  | some (ip, _) => do
    iput ip
    return -1
  | none => do
    let s ← get
    let e ← scan "dirlink read" (fun de => de.inum = 0) dp (s.icache dp).copy.size.toNat 0
    writeDirent "dirlink" dp e.1 (.make name inum)
    return 0

def eraseDirent (dp : Fin NINODE) (off : ℕ) : M Unit := writeDirent "unlink: writei" dp off .zero

namespace State

variable (s : State) (i : ℕ)

def dirent (k : ℕ) : Dirent := .ofBytes fun j => s.byte i (DESIZE * k + j)

def dirLen : ℕ := (s.inode i).size.toNat / DESIZE

def table : Table (List Byte) ℕ where
  size := s.dirLen i
  slot k :=
    if k < s.dirLen i ∧ (s.dirent i k).inum ≠ 0 then
      some ((s.dirent i k).key, (s.dirent i k).inum.toNat)
    else none
  bound _ hk := if_neg fun h => absurd h.1 (Nat.not_lt.mpr hk)

def freeEntry : ℕ :=
  ((List.range (s.dirLen i)).find? fun k => (s.dirent i k).inum = 0).getD (s.dirLen i)

end State

structure Readable (ip : Fin NINODE) (i n : ℕ) (s : State) : Prop where
  mounted : Mounted s
  owns : Owns ∅ s
  holds : s.Holds ip i
  dir : (s.inode i).type = T_DIR
  size : DESIZE * n ≤ (s.inode i).size.toNat
  max : DESIZE * n ≤ MAXFILE * BSIZE
  full : ∀ k < n, s.addr (i, blockSlot (DESIZE * k / BSIZE)) ≠ 0

section Scan

variable {s : State} {ip : Fin NINODE} {i n k : ℕ} {msg : String} {stop : Dirent → Bool}

theorem Readable.isFile (h : Readable ip i n s) : (s.inode i).IsFile := .inr h.dir

theorem readDirent_run (h : Readable ip i n s) (hk : k < n) :
    (readDirent msg ip (DESIZE * k)).run s = .ok (s.dirent i k) s := by
  have hsize := h.size
  have hmax := h.max
  simp only [MAXFILE, BSIZE, DESIZE] at hsize hmax
  have hoff : (BitVec.ofNat 32 (DESIZE * k)).toNat = DESIZE * k := by
    rw [BitVec.toNat_ofNat]
    simp only [DESIZE]
    omega
  have hlen : (BitVec.ofNat 32 DESIZE).toNat = DESIZE := rfl
  have hread := readi_inside_run h.mounted h.owns h.holds h.isFile (BitVec.ofNat 32 (DESIZE * k))
    (BitVec.ofNat 32 DESIZE) ?_ ?_ ?_
  · rw [readDirent, bind_ok hread, hlen, hoff]
    dsimp only
    rw [if_neg (by simp)]
    refine congrArg (EStateM.Result.ok · s) (Dirent.ofBytes_congr fun j hj => ?_)
    simp only [List.getD_eq_getElem?_getD, List.getElem?_map, List.getElem?_range hj,
      Option.map_some, Option.getD_some]
  · rw [hoff, hlen]
    simp only [DESIZE]
    omega
  · rw [hoff, hlen]
    simp only [MAXFILE, BSIZE, DESIZE]
    omega
  · intro j hlo hhi
    rw [hoff] at hlo hhi
    rw [hlen] at hhi
    -- an entry does not cross the end of a block
    have hdiv : j / BSIZE = DESIZE * k / BSIZE := by
      simp only [BSIZE, DESIZE] at hlo hhi ⊢
      omega
    rw [hdiv]
    exact h.full k hk

theorem scan_of_false (h : Readable ip i n s) (hk : k < n) (hstop : stop (s.dirent i k) = false)
    {fuel : ℕ} :
    (scan msg stop ip (fuel + 1) (DESIZE * k)).run s =
      (scan msg stop ip fuel (DESIZE * (k + 1))).run s := by
  have hsize := h.size
  simp only [DESIZE] at hsize
  rw [scan, get_bind, ← inode_of_holds h.mounted h.holds, if_neg (by simp only [DESIZE]; omega),
    bind_ok (readDirent_run h hk), hstop, Nat.mul_succ]
  rfl

theorem scan_found (msg : String) (stop : Dirent → Bool) (k fuel : ℕ) (h : Readable ip i n s)
    {m : ℕ} (hkm : k ≤ m) (hm : m < n) (hfuel : m < k + fuel)
    (hbefore : ∀ l, k ≤ l → l < m → stop (s.dirent i l) = false)
    (hstop : stop (s.dirent i m) = true) :
    (scan msg stop ip fuel (DESIZE * k)).run s = .ok (DESIZE * m, some (s.dirent i m)) s := by
  induction fuel generalizing k with
  | zero => omega
  | succ fuel ih =>
    by_cases heq : k = m
    · have hsize := h.size
      simp only [DESIZE] at hsize
      rw [heq, scan, get_bind, ← inode_of_holds h.mounted h.holds,
        if_neg (by simp only [DESIZE]; omega), bind_ok (readDirent_run h hm), hstop]
      rfl
    · rw [scan_of_false h (by omega) (hbefore k le_rfl (by omega))]
      exact ih (k + 1) (by omega) (by omega) fun l hl => hbefore l (by omega)

theorem scan_none (msg : String) (stop : Dirent → Bool) (k fuel : ℕ) (h : Readable ip i n s)
    (hkn : k ≤ n) (hfuel : n ≤ k + fuel)
    (hsize : (s.inode i).size.toNat = DESIZE * n)
    (hnone : ∀ l, k ≤ l → l < n → stop (s.dirent i l) = false) :
    (scan msg stop ip fuel (DESIZE * k)).run s = .ok (DESIZE * n, none) s := by
  induction fuel generalizing k with
  | zero =>
    obtain rfl : k = n := by omega
    rfl
  | succ fuel ih =>
    by_cases heq : k = n
    · rw [heq, scan, get_bind, ← inode_of_holds h.mounted h.holds, if_pos hsize.le]
      rfl
    · rw [scan_of_false h (by omega) (hnone k le_rfl (by omega))]
      exact ih (k + 1) (by omega) (by omega) fun l hl => hnone l (by omega)

@[simp] theorem size_table : (s.table i).size = s.dirLen i := rfl

theorem slot_eq_some {a : List Byte} {v : ℕ} :
    (s.table i).slot k = some (a, v) ↔ k < s.dirLen i ∧ (s.dirent i k).inum ≠ 0 ∧
      (s.dirent i k).key = a ∧ (s.dirent i k).inum.toNat = v := by
  rw [State.table]
  dsimp only
  split_ifs with h
  · rw [Option.some_inj, Prod.mk.injEq]
    tauto
  · simp only [false_iff]
    tauto

theorem slot_eq_none : (s.table i).slot k = none ↔ k < s.dirLen i → (s.dirent i k).inum = 0 := by
  rw [State.table]
  dsimp only
  split_ifs with h
  · simp only [false_iff]
    exact fun hz => h.2 (hz h.1)
  · simp only [true_iff]
    intro hk
    by_contra hz
    exact h ⟨hk, hz⟩

variable {name : Str}

theorem named_iff (hk : k < s.dirLen i) :
    (s.dirent i k).named name = true ↔ ∃ v, (s.table i).slot k = some (nameOf name DIRSIZ, v) := by
  simp only [slot_eq_some, Dirent.named, decide_eq_true_eq, namecmp_eq_zero_iff, Dirent.key]
  constructor
  · rintro ⟨hz, hname⟩
    exact ⟨_, hk, hz, hname.symm, rfl⟩
  · rintro ⟨v, -, hz, hname, -⟩
    exact ⟨hz, hname.symm⟩

theorem Readable.le_dirLen (h : Readable ip i n s) : n ≤ s.dirLen i := by
  rw [State.dirLen, Nat.le_div_iff_mul_le (by decide), Nat.mul_comm]
  exact h.size

theorem dirlookup_found (h : Readable ip i n s) {v : ℕ} (hk : k < n)
    (hslot : (s.table i).slot k = some (nameOf name DIRSIZ, v))
    (hbefore : ∀ l < k, ∀ w, (s.table i).slot l ≠ some (nameOf name DIRSIZ, w)) :
    (dirlookup ip name).run s =
      (do let p ← iget v; return some (p, DESIZE * k) : M (Option (Fin NINODE × ℕ))).run s := by
  have hlen := h.le_dirLen
  have hsize := h.size
  simp only [DESIZE] at hsize
  rw [dirlookup, get_bind, ← inode_of_holds h.mounted h.holds, if_neg (not_not.mpr h.dir)]
  have hscan := scan_found "dirlink read" (Dirent.named name) 0 (s.inode i).size.toNat h
    (Nat.zero_le k) hk (by omega) (fun l _ hl => ?_)
    ((named_iff (by omega)).mpr ⟨v, hslot⟩)
  · rw [Nat.mul_zero] at hscan
    rw [bind_ok hscan]
    dsimp only
    rw [(slot_eq_some.mp hslot).2.2.2]
  · rw [Bool.eq_false_iff, ne_eq, named_iff (by omega)]
    rintro ⟨w, hw⟩
    exact hbefore l hl w hw

theorem dirlookup_absent (h : Readable ip i n s) (hsize : (s.inode i).size.toNat = DESIZE * n)
    (hnone : ∀ l w, (s.table i).slot l ≠ some (nameOf name DIRSIZ, w)) :
    (dirlookup ip name).run s = .ok none s := by
  have hlen := h.le_dirLen
  rw [dirlookup, get_bind, ← inode_of_holds h.mounted h.holds, if_neg (not_not.mpr h.dir)]
  have hscan := scan_none "dirlink read" (Dirent.named name) 0 (s.inode i).size.toNat h
    (Nat.zero_le n) (by simp only [hsize, DESIZE]; omega) hsize
    fun l _ hl => ?_
  · rw [Nat.mul_zero] at hscan
    rw [bind_ok hscan]
    rfl
  · rw [Bool.eq_false_iff, ne_eq, named_iff (by omega)]
    rintro ⟨w, hw⟩
    exact hnone l w hw

end Scan

structure Directory (ip : Fin NINODE) (i : ℕ) (s : State) : Prop where
  wf : WellFormed s
  holds : s.Holds ip i
  dir : (s.inode i).type = T_DIR
  aligned : DESIZE ∣ (s.inode i).size.toNat
  outstanding : 1 ≤ s.outstanding
  distinct : (s.table i).Distinct

section Write

variable {s s' : State} {ip : Fin NINODE} {i k l : ℕ} {msg : String} {de : Dirent} {name : Str}

theorem mul_dirLen (h : DESIZE ∣ (s.inode i).size.toNat) :
    DESIZE * s.dirLen i = (s.inode i).size.toNat := Nat.mul_div_cancel' h

theorem addr_dirent (h : WellFormed s) (hlive : s.Live i) (hdir : (s.inode i).type = T_DIR)
    (hk : k < s.dirLen i) {j : ℕ} (hj : j < DESIZE) :
    s.addr (i, blockSlot ((DESIZE * k + j) / BSIZE)) ≠ 0 := by
  refine h.addr_ne_zero hlive (.inr hdir) ?_
  have hle : (k + 1) * DESIZE ≤ (s.inode i).size.toNat :=
    (Nat.le_div_iff_mul_le (by decide)).mp hk
  simp only [DESIZE] at hle hj ⊢
  omega

theorem Directory.live (h : Directory ip i s) : s.Live i := h.holds.live h.wf.mounted (.inr h.dir)

theorem Directory.readable (h : Directory ip i s) : Readable ip i (s.dirLen i) s where
  mounted := h.wf.mounted
  owns := h.wf.owns
  holds := h.holds
  dir := h.dir
  size := (mul_dirLen h.aligned).le
  max := (mul_dirLen h.aligned).le.trans (h.wf.size_le h.live (.inr h.dir))
  full _ hk := addr_dirent h.wf h.live h.dir hk (j := 0) (by decide)

theorem writeDirent_ends (msg : String) (de : Dirent) (h : WellFormed s) (hip : s.Holds ip i)
    (hdir : (s.inode i).type = T_DIR) (hout : 1 ≤ s.outstanding)
    (hk : DESIZE * k ≤ (s.inode i).size.toNat)
    (hmax : DESIZE * (k + 1) ≤ MAXFILE * BSIZE) :
    Ends (writeDirent msg ip (DESIZE * k) de) s
      (fun _ s' => Written ip i (fun j => de.bytes (j - DESIZE * k)) (DESIZE * k) DESIZE s s')
      (fun e _ => Lacks s i (slotsOf (DESIZE * k) DESIZE) e) := by
  simp only [MAXFILE, BSIZE, DESIZE] at hmax
  have hoff : (BitVec.ofNat 32 (DESIZE * k)).toNat = DESIZE * k := by
    rw [BitVec.toNat_ofNat]
    simp only [DESIZE]
    omega
  have hlen : (BitVec.ofNat 32 DESIZE).toNat = DESIZE := rfl
  have hwrite : Ends (writei ip de.bytes (BitVec.ofNat 32 (DESIZE * k)) (BitVec.ofNat 32 DESIZE)) s
      _ _ := writei_ends h hip (.inr hdir) hout (by rwa [hoff])
    (by rw [hoff, hlen]; simp only [MAXFILE, BSIZE, DESIZE]; omega)
  rw [hoff, hlen] at hwrite
  refine hwrite.bind ?_
  rintro r s₁ ⟨rfl, hw⟩
  rw [if_neg (not_not.mpr rfl)]
  exact hw

section Written

variable (h : WellFormed s) (hip : s.Holds ip i) (hdir : (s.inode i).type = T_DIR)
  (hw : Written ip i (fun j => de.bytes (j - DESIZE * k)) (DESIZE * k) DESIZE s s')

include hw

theorem Written.dirent_self : s'.dirent i k = de := by
  rw [State.dirent, ← Dirent.ofBytes_bytes de]
  refine Dirent.ofBytes_congr fun j hj => ?_
  rw [hw.wrote.new _ (Nat.le_add_right _ _) (Nat.add_lt_add_left hj _), Nat.add_sub_cancel_left]

include h hip hdir

theorem Written.dirent_of_ne (hl : l < s.dirLen i) (hne : l ≠ k) :
    s'.dirent i l = s.dirent i l := by
  refine Dirent.ofBytes_congr fun j hj => ?_
  rw [hw.wrote.old i _ (addr_dirent h (hip.live h.mounted (.inr hdir)) hdir hl hj), if_neg]
  simp only [DESIZE] at hj ⊢
  omega

variable (hal : DESIZE ∣ (s.inode i).size.toNat) (hmax : DESIZE * (k + 1) ≤ MAXFILE * BSIZE)
include hal hmax

theorem Written.dirLen :
    s'.dirLen i = max (s.dirLen i) (k + 1) ∧ DESIZE ∣ (s'.inode i).size.toNat := by
  obtain ⟨addrs, hinode⟩ := hw.inode_self h.mounted hip
  have hle := h.size_le (hip.live h.mounted (.inr hdir)) (.inr hdir)
  have hmul := mul_dirLen hal
  simp only [MAXFILE, BSIZE, DESIZE] at hle hmax hmul
  have hsize : (s'.inode i).size.toNat = DESIZE * max (s.dirLen i) (k + 1) := by
    rw [hinode, BitVec.toNat_ofNat]
    simp only [DESIZE]
    omega
  refine ⟨?_, hsize ▸ Nat.dvd_mul_right _ _⟩
  rw [State.dirLen, hsize, Nat.mul_div_cancel_left _ (by decide)]

theorem Written.slot_of_ne (hk : k ≤ s.dirLen i) (hne : l ≠ k) :
    (s'.table i).slot l = (s.table i).slot l := by
  have hlen := (hw.dirLen h hip hdir hal hmax).1
  by_cases hl : l < s.dirLen i
  · have hlt : l < s'.dirLen i := hlen.symm ▸ lt_max_of_lt_left hl
    rw [State.table, State.table]
    simp only [hw.dirent_of_ne h hip hdir hl hne, hl, hlt]
  · rw [(s.table i).bound l (Nat.not_lt.mp hl), (s'.table i).bound l]
    rw [size_table, hlen]
    omega

theorem Written.table_fill (hk : k ≤ s.dirLen i) (hinum : de.inum ≠ 0) :
    s'.table i = (s.table i).fill k de.key de.inum.toNat := by
  have hlen := (hw.dirLen h hip hdir hal hmax).1
  refine Table.ext hlen fun l => ?_
  by_cases hl : l = k
  · rw [hl, Table.slot_fill_self, slot_eq_some, hw.dirent_self]
    exact ⟨hlen.symm ▸ lt_max_of_lt_right (Nat.lt_succ_self k), hinum, rfl, rfl⟩
  · rw [Table.slot_fill_of_ne hl, hw.slot_of_ne h hip hdir hal hmax hk hl]

theorem Written.table_clear (hk : k < s.dirLen i) (hinum : de.inum = 0) :
    s'.table i = (s.table i).clear k := by
  have hlen := (hw.dirLen h hip hdir hal hmax).1
  rw [max_eq_left hk] at hlen
  refine Table.ext hlen fun l => ?_
  by_cases hl : l = k
  · rw [hl, Table.slot_clear_self, slot_eq_none, hw.dirent_self]
    exact fun _ => hinum
  · rw [Table.slot_clear_of_ne hl, hw.slot_of_ne h hip hdir hal hmax hk.le hl]

end Written

theorem Directory.written (h : Directory ip i s)
    (hw : Written ip i (fun j => de.bytes (j - DESIZE * k)) (DESIZE * k) DESIZE s s')
    (hmax : DESIZE * (k + 1) ≤ MAXFILE * BSIZE) (hd : (s'.table i).Distinct) :
    Directory ip i s' where
  wf := hw.wf
  holds := hw.holds.mpr h.holds
  dir := by
    obtain ⟨addrs, hinode⟩ := hw.inode_self h.wf.mounted h.holds
    rw [hinode]
    exact h.dir
  aligned := (hw.dirLen h.wf h.holds h.dir h.aligned hmax).2
  outstanding := by
    rw [hw.rest]
    exact h.outstanding
  distinct := hd

theorem freeEntry_le : s.freeEntry i ≤ s.dirLen i := by
  rw [State.freeEntry]
  cases hf : (List.range (s.dirLen i)).find? fun k => (s.dirent i k).inum = 0 with
  | none => exact le_rfl
  | some k => exact (List.mem_range.mp (List.mem_of_find?_eq_some hf)).le

theorem slot_freeEntry : (s.table i).slot (s.freeEntry i) = none := by
  rw [slot_eq_none, State.freeEntry]
  cases hf : (List.range (s.dirLen i)).find? fun k => (s.dirent i k).inum = 0 with
  | none => exact fun hlt => absurd hlt (Nat.lt_irrefl _)
  | some k => exact fun _ => by simpa using List.find?_some hf

theorem not_free_of_lt (hk : k < s.freeEntry i) : (s.dirent i k).inum ≠ 0 := by
  rw [State.freeEntry] at hk
  cases hf : (List.range (s.dirLen i)).find? fun k => (s.dirent i k).inum = 0 with
  | none =>
    rw [hf, Option.getD_none] at hk
    simpa using List.find?_eq_none.mp hf k (List.mem_range.mpr hk)
  | some l =>
    rw [hf, Option.getD_some] at hk
    have hbefore := (List.find?_range_eq_some.mp hf).2.2 k hk
    simpa using hbefore

theorem scan_free (msg : String) (h : Directory ip i s) :
    ∃ o, (scan msg (fun de => de.inum = 0) ip (s.icache ip).copy.size.toNat 0).run s =
      .ok (DESIZE * s.freeEntry i, o) s := by
  have hread := h.readable
  have hmul := mul_dirLen h.aligned
  rw [← inode_of_holds h.wf.mounted h.holds]
  have hbefore (l : ℕ) (hl : l < s.freeEntry i) : decide ((s.dirent i l).inum = 0) = false :=
    decide_eq_false (not_free_of_lt hl)
  by_cases hlt : s.freeEntry i < s.dirLen i
  · have hscan := scan_found msg (fun de => de.inum = 0) 0 (s.inode i).size.toNat hread
      (Nat.zero_le _) hlt (by simp only [DESIZE] at hmul; omega)
      (fun l _ hl => hbefore l hl) (decide_eq_true (slot_eq_none.mp slot_freeEntry hlt))
    exact ⟨_, hscan⟩
  · have heq : s.freeEntry i = s.dirLen i := Nat.le_antisymm freeEntry_le (Nat.not_lt.mp hlt)
    have hscan := scan_none msg (fun de => de.inum = 0) 0 (s.inode i).size.toNat hread
      (Nat.zero_le _) (by simp only [DESIZE] at hmul; omega)
      hmul.symm (fun l _ hl => hbefore l (heq.symm ▸ hl))
    rw [← heq] at hscan
    exact ⟨_, hscan⟩

theorem dirlink_absent_ends (h : Directory ip i s) {inum : ℕ}
    (ha : (s.table i).get (nameOf name DIRSIZ) = none)
    (hmax : DESIZE * (s.freeEntry i + 1) ≤ MAXFILE * BSIZE) :
    Ends (dirlink ip name inum) s
      (fun r s' => r = 0 ∧ Written ip i
        (fun j => (Dirent.make name inum).bytes (j - DESIZE * s.freeEntry i))
        (DESIZE * s.freeEntry i) DESIZE s s')
      (fun e _ => Lacks s i (slotsOf (DESIZE * s.freeEntry i) DESIZE) e) := by
  have hle : DESIZE * s.freeEntry i ≤ (s.inode i).size.toNat := by
    rw [← mul_dirLen h.aligned]
    exact Nat.mul_le_mul_left _ freeEntry_le
  refine Ends.bind_of_eq (dirlookup_absent h.readable (mul_dirLen h.aligned).symm
    (Table.get_eq_none.mp ha)) (ends_get_bind ?_)
  obtain ⟨o, hscan⟩ := scan_free "dirlink read" h
  refine Ends.bind_of_eq hscan ?_
  refine (writeDirent_ends _ _ h.wf h.holds h.dir h.outstanding hle hmax).bind fun _ s₁ hw => ?_
  exact ⟨rfl, hw⟩

theorem dirlink_present_ends (h : Directory ip i s) {inum v : ℕ}
    (ha : (s.table i).get (nameOf name DIRSIZ) = some v) :
    Ends (dirlink ip name inum) s (fun r s' => r = -1 ∧ SameRefs s s')
      (fun e _ => e = .panic "iget: no inodes" ∧
        ∀ k, 0 < (s.icache k).ref ∧ (s.icache k).inum ≠ v) := by
  obtain ⟨k, hk⟩ := (Table.get_eq_some h.distinct).mp ha
  have hlookup := dirlookup_found h.readable (Table.lt_size hk) hk fun l hl w hw =>
    hl.ne (h.distinct l k _ w v hw hk)
  rw [dirlink, Ends, EStateM.run_bind, hlookup, ← EStateM.run_bind, bind_assoc]
  refine iget_ends.bind fun p s₁ hp => ?_
  refine (iput_of_iget hp).bind fun _ s₂ hs => ?_
  exact ⟨rfl, hs⟩

end Write

def State.Cacheable (s : State) (v : ℕ) : Prop := ∃ k, (s.icache k).ref = 0 ∨ (s.icache k).inum = v

inductive DirOp
  | link (name : Str) (inum : ℕ)
  | erase (off : ℕ)

namespace DirOp

def run (dp : Fin NINODE) : DirOp → M ℤ
  | link name inum => dirlink dp name inum
  | erase off => do
    eraseDirent dp off
    return 0

def exec (dp : Fin NINODE) (s : State) (op : DirOp) : State :=
  match (op.run dp).run s with
  | .ok _ s' => s'
  | .error _ s' => s'

/-- The call is for an inode number, or for an entry that is in use, and nothing that it needs runs
out. -/
def Fits (i : ℕ) (s : State) : DirOp → Prop
  | link name inum =>
    match (s.table i).get (nameOf name DIRSIZ) with
    | some v => s.Cacheable v
    | none => 1 ≤ inum ∧ inum < 2 ^ 16 ∧ DESIZE * (s.freeEntry i + 1) ≤ MAXFILE * BSIZE ∧
        Room s i (DESIZE * s.freeEntry i) DESIZE
  | erase off => (∃ k a v, off = DESIZE * k ∧ (s.table i).slot k = some (a, v)) ∧
      Room s i off DESIZE

def Spec (i : ℕ) (s : State) (r : ℤ) (s' : State) : DirOp → Prop
  | link name inum =>
    match (s.table i).get (nameOf name DIRSIZ) with
    | some _ => r = -1 ∧ SameRefs s s'
    | none => r = 0 ∧
        (∃ k ≤ s.dirLen i, (s.table i).slot k = none ∧
          s'.table i = (s.table i).fill k (nameOf name DIRSIZ) inum) ∧
        (s'.table i).get = Function.update (s.table i).get (nameOf name DIRSIZ) (some inum)
  | erase off => r = 0 ∧ ∃ k a v, off = DESIZE * k ∧ (s.table i).slot k = some (a, v) ∧
      s'.table i = (s.table i).clear k ∧ (s'.table i).get = Function.update (s.table i).get a none

end DirOp

structure RefinesMap (dp : Fin NINODE) (i : ℕ) (s : State) : Prop where
  distinct : (s.table i).Distinct
  lookup : ∀ name, (∀ v, (s.table i).get (nameOf name DIRSIZ) = some v → s.Cacheable v) →
    Returns (dirlookup dp name) s fun r s' =>
      match (s.table i).get (nameOf name DIRSIZ) with
      | none => r = none ∧ s' = s
      | some v => ∃ p k, r = some (p, DESIZE * k) ∧
          (s.table i).slot k = some (nameOf name DIRSIZ, v) ∧
          0 < (s'.icache p).ref ∧ (s'.icache p).inum = v ∧ s' = { s with icache := s'.icache }
  call : ∀ op : DirOp, op.Fits i s → Returns (op.run dp) s fun r s' => op.Spec i s r s'

section Map

variable {s s' : State} {dp : Fin NINODE} {i : ℕ}

theorem SameView.dirent (h : SameView s s') (k : ℕ) : s'.dirent i k = s.dirent i k :=
  Dirent.ofBytes_congr fun _ _ => h.byte i _

theorem SameView.table (h : SameView s s') : s'.table i = s.table i := by
  have hlen : s'.dirLen i = s.dirLen i := by rw [State.dirLen, State.dirLen, h.inode]
  refine Table.ext hlen fun k => ?_
  simp only [State.table, hlen, h.dirent]

theorem Directory.sameRefs (h : Directory dp i s) (hs : SameRefs s s') : Directory dp i s' := by
  have hview := hs.sameView h.wf.mounted
  refine ⟨hview.wellFormed h.wf, ?_, ?_, ?_, ?_, ?_⟩
  · rw [State.Holds, hs.used dp h.holds.1]
    exact h.holds
  · rw [hview.inode]
    exact h.dir
  · rw [hview.inode]
    exact h.aligned
  · rw [hs.rest]
    exact h.outstanding
  · rw [hview.table]
    exact h.distinct

theorem State.Cacheable.not_full {v : ℕ} (h : s.Cacheable v) :
    ¬ ∀ k, 0 < (s.icache k).ref ∧ (s.icache k).inum ≠ v := by
  intro hfull
  obtain ⟨k, hk | hk⟩ := h
  · exact (hfull k).1.ne' hk
  · exact (hfull k).2 hk

section Calls

variable (h : Directory dp i s)
include h

theorem Directory.link_returns {name : Str} {inum : ℕ} (hfits : (DirOp.link name inum).Fits i s) :
    Returns (dirlink dp name inum) s fun r s' =>
      Directory dp i s' ∧ (DirOp.link name inum).Spec i s r s' := by
  rw [DirOp.Fits] at hfits
  simp only [DirOp.Spec]
  cases hget : (s.table i).get (nameOf name DIRSIZ) with
  | some v =>
    rw [hget] at hfits
    refine ((dirlink_present_ends h hget).returns fun _ _ he => hfits.not_full he.2).mono ?_
    rintro r s' ⟨hr, hs⟩
    exact ⟨h.sameRefs hs, hr, hs⟩
  | none =>
    rw [hget] at hfits
    obtain ⟨hlo, hhi, hmax, hroom⟩ := hfits
    have hnat : (Dirent.make name inum).inum.toNat = inum := Nat.mod_eq_of_lt hhi
    have hne : (Dirent.make name inum).inum ≠ 0 := by
      intro h0
      rw [h0] at hnat
      exact absurd hnat.symm (by simpa using Nat.one_le_iff_ne_zero.mp hlo)
    refine ((dirlink_absent_ends h hget hmax).returns fun e _ =>
      hroom.not_lacks h.wf.mounted e).mono ?_
    rintro r s' ⟨hr, hw⟩
    have htable := hw.table_fill h.wf h.holds h.dir h.aligned hmax freeEntry_le hne
    rw [Dirent.key_make, hnat] at htable
    have hd : (s'.table i).Distinct := htable ▸ h.distinct.fill (Table.get_eq_none.mp hget)
    refine ⟨h.written hw hmax hd, hr, ⟨_, freeEntry_le, slot_freeEntry, htable⟩, ?_⟩
    rw [htable]
    exact Table.get_fill h.distinct slot_freeEntry hget

theorem Directory.erase_returns {off : ℕ} (hfits : (DirOp.erase off).Fits i s) :
    Returns ((DirOp.erase off).run dp) s fun r s' =>
      Directory dp i s' ∧ (DirOp.erase off).Spec i s r s' := by
  obtain ⟨⟨k, a, v, rfl, hslot⟩, hroom⟩ := hfits
  have hk : k < s.dirLen i := Table.lt_size hslot
  have hle : DESIZE * (k + 1) ≤ (s.inode i).size.toNat := by
    rw [← mul_dirLen h.aligned]
    exact Nat.mul_le_mul_left _ hk
  have hmax := hle.trans (h.wf.size_le h.live (.inr h.dir))
  have hwrite := writeDirent_ends "unlink: writei" .zero h.wf h.holds h.dir
    h.outstanding ((Nat.mul_le_mul_left _ (Nat.le_succ k)).trans hle) hmax
  refine (hwrite.returns fun e _ => hroom.not_lacks h.wf.mounted e).bind fun _ s' hw => ?_
  have htable := hw.table_clear h.wf h.holds h.dir h.aligned hmax hk rfl
  have hd : (s'.table i).Distinct := htable ▸ h.distinct.clear
  refine returns_pure ⟨h.written hw hmax hd, rfl, k, a, v, rfl, hslot, htable, ?_⟩
  rw [htable]
  exact Table.get_clear h.distinct hslot

theorem Directory.call_returns {op : DirOp} (hfits : op.Fits i s) :
    Returns (op.run dp) s fun r s' => Directory dp i s' ∧ op.Spec i s r s' := by
  cases op with
  | link name inum => exact h.link_returns hfits
  | erase off => exact h.erase_returns hfits

theorem Directory.lookup_returns {name : Str}
    (hroom : ∀ v, (s.table i).get (nameOf name DIRSIZ) = some v → s.Cacheable v) :
    Returns (dirlookup dp name) s fun r s' =>
      match (s.table i).get (nameOf name DIRSIZ) with
      | none => r = none ∧ s' = s
      | some v => ∃ p k, r = some (p, DESIZE * k) ∧
          (s.table i).slot k = some (nameOf name DIRSIZ, v) ∧
          0 < (s'.icache p).ref ∧ (s'.icache p).inum = v ∧ s' = { s with icache := s'.icache } := by
  cases hget : (s.table i).get (nameOf name DIRSIZ) with
  | none =>
    exact returns_of_eq (dirlookup_absent h.readable (mul_dirLen h.aligned).symm
      (Table.get_eq_none.mp hget)) ⟨rfl, rfl⟩
  | some v =>
    obtain ⟨k, hk⟩ := (Table.get_eq_some h.distinct).mp hget
    rw [Returns, dirlookup_found h.readable (Table.lt_size hk) hk fun l hl w hw =>
      hl.ne (h.distinct l k _ w v hw hk)]
    refine (iget_ends.returns fun _ _ he => (hroom v hget).not_full he.2).bind fun p s' hp => ?_
    refine returns_pure ⟨p, k, rfl, hk, ?_⟩
    rcases hp with ⟨-, hinum, rfl⟩ | ⟨-, -, rfl⟩
    · rw [State.dup, icache_putInode_self]
      exact ⟨Nat.succ_pos _, hinum, rfl⟩
    · rw [State.fresh, icache_putInode_self]
      exact ⟨Nat.one_pos, rfl, rfl⟩

theorem Directory.refinesMap : RefinesMap dp i s where
  distinct := h.distinct
  lookup _ hroom := h.lookup_returns hroom
  call _ hfits := (h.call_returns hfits).mono fun _ _ hs => hs.2

theorem Directory.exec {op : DirOp} (hfits : op.Fits i s) :
    Directory dp i (DirOp.exec dp s op) := by
  obtain ⟨r, s', hrun, hs, -⟩ := h.call_returns hfits
  rwa [DirOp.exec, hrun]

end Calls

theorem always_refinesMap (h : Directory dp i s) {ops : List DirOp}
    (hfits : Along (DirOp.exec dp) (DirOp.Fits i) s ops) :
    Always (DirOp.exec dp) (RefinesMap dp i) s ops :=
  hfits.always h (fun _ _ hs hop => hs.exec hop) fun _ hs => hs.refinesMap

end Map

section Small

def rootState (size : ℕ) : State := ((smallState size).fresh 1 1).lock 1

def oneByte (c : Byte) : Str := fun k => if k = 0 then c else 0

variable {size : ℕ}

theorem sameView_root (hlo : 35 ≤ size) (hhi : size ≤ FSSIZE) :
    SameView (smallState size) ((smallState size).fresh 1 1) := by
  refine sameView_fresh (mounted_small hlo hhi) rfl ⟨le_rfl, show 1 < 3 by decide⟩ fun k hk => ?_
  by_cases hne : k = 0
  · rw [hne]
    exact show 2 ≠ 1 by decide
  · simp only [smallState, if_neg hne] at hk
    exact absurd hk (Nat.lt_irrefl 0)

theorem directory_root : Directory 1 1 (rootState 36) := by
  have hview : SameView (smallState 36) ((smallState 36).fresh 1 1) :=
    sameView_root (by decide) (by decide)
  have href : 0 < (((smallState 36).fresh 1 1).icache 1).ref := Nat.one_pos
  have hlock : SameView _ (rootState 36) := sameView_lock hview.mounted href
  have hinode : (rootState 36).inode 1 = smallRoot := by
    rw [hlock.inode, hview.inode, inode_small_one]
  have hlen : (rootState 36).dirLen 1 = 3 := by
    rw [State.dirLen, hinode]
    rfl
  refine ⟨hlock.wellFormed (hview.wellFormed (wellFormed_small (by decide) (by decide))),
    ⟨Nat.one_pos, rfl, rfl⟩, ?_, ?_, le_rfl, ?_⟩
  · rw [hinode]
    rfl
  · rw [hinode]
    decide
  · intro k l a v w hk hl
    have hk3 : k < 3 := hlen ▸ Table.lt_size hk
    have hl3 : l < 3 := hlen ▸ Table.lt_size hl
    have hkeys : ∀ k < 3, ∀ l < 3,
        ((rootState 36).dirent 1 k).key = ((rootState 36).dirent 1 l).key → k = l := by
      decide +kernel
    exact hkeys k hk3 l hl3 ((slot_eq_some.mp hk).2.2.1.trans (slot_eq_some.mp hl).2.2.1.symm)

theorem always_refinesMap_root :
    Always (DirOp.exec 1) (RefinesMap 1 1) (rootState 36) [.link (oneByte 103) 2, .erase 32] := by
  refine always_refinesMap directory_root ⟨?_, ?_, trivial⟩
  · have hget : ((rootState 36).table 1).get (nameOf (oneByte 103) DIRSIZ) = none := by
      decide +kernel
    rw [DirOp.Fits, hget]
    exact ⟨by decide, by decide, by decide +kernel, by decide +kernel, by decide +kernel⟩
  · exact ⟨⟨2, [102], 2, rfl, by decide +kernel⟩, by decide +kernel, by decide +kernel⟩

def emptyDir : Dinode := { smallFile with type := T_DIR }

def fullState : State := (smallState 35).putCopy 0 emptyDir

theorem directory_full : Directory 0 2 fullState := by
  have hwf : WellFormed (smallState 35) := wellFormed_small (by decide) (by decide)
  have hip : (smallState 35).Holds 0 2 := ⟨by decide, rfl, rfl⟩
  have hfile : (smallState 35).inode 2 = smallFile := inode_small_two (by decide) (by decide)
  have hlive : (smallState 35).Live 2 := hip.live hwf.mounted (by rw [hfile]; decide)
  have hinode : fullState.inode 2 = emptyDir := inode_putCopy_self hwf.mounted hip
  have haddr : ∀ x, fullState.addr x = (smallState 35).addr x :=
    addr_putCopy_of_addrs hwf.mounted hip hlive (by decide) rfl
  refine ⟨⟨hwf.mounted.putCopy, hwf.owns.putCopy haddr, fun j hj hjfile bn hbn => ?_⟩,
    (holds_putCopy 0).mpr hip, ?_, ?_, le_rfl, fun k l a v w hk => ?_⟩
  · have hj2 : j ≠ 2 := by
      rintro rfl
      rw [hinode] at hbn
      exact Nat.not_lt_zero _ hbn
    have hsame : fullState.inode j = (smallState 35).inode j :=
      inode_putCopy_of_ne hwf.mounted hip hj2
    have hlivej : fullState.Live j ↔ (smallState 35).Live j := live_congr rfl hsame
    rw [haddr]
    exact hwf.noHoles j (hlivej.mp hj) (hsame ▸ hjfile) bn (hsame ▸ hbn)
  · rw [hinode]
    rfl
  · rw [hinode]
    decide
  · have hlt : k < fullState.dirLen 2 := Table.lt_size hk
    rw [State.dirLen, hinode] at hlt
    exact absurd hlt (Nat.not_lt_zero k)

/-- A name that is absent is not added: `balloc` has no block for the first entry. -/
theorem not_refinesMap_full : Directory 0 2 fullState ∧
    (fullState.table 2).get (nameOf (oneByte 46) DIRSIZ) = none ∧
    Stops ((DirOp.link (oneByte 46) 2).run 0) fullState
      (fun e _ => e = .panic "balloc: out of blocks") ∧
    ¬ Returns ((DirOp.link (oneByte 46) 2).run 0) fullState
      (fun r s' => (DirOp.link (oneByte 46) 2).Spec 2 fullState r s') := by
  have hstops : Stops ((DirOp.link (oneByte 46) 2).run 0) fullState
      (fun e _ => e = .panic "balloc: out of blocks") :=
    stops_of_stopsWith (by decide +kernel)
  exact ⟨directory_full, by decide +kernel, hstops, hstops.not_returns⟩

end Small

end Xv6Prng.FileSys
