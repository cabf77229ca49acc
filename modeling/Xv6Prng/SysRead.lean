import Xv6Prng.ConsoleLine
import Xv6Prng.FileWrite
import Xv6Prng.SysEncrypt
import Xv6Prng.OpenFiles

/-!
# What `read` writes to user memory

`sys_read` checks its buffer with `argptr` and hands it to a pipe, to the console or to `readi`.
The length is an `int` up to `readi`, which takes it as unsigned: there a negative length is a
large one, and it is cut to the size of the file.

While a call waits, other processes and interrupts run. What they leave for it is an argument:
the bytes in the pipe when the wait ends, and one character of the console for each turn of the
loop. `writes` is a ghost record of the addresses written. Of a file `readi` copies the bytes that
the `readi` of `Inodes` returns, and a character of the console is a turn of the loop in
`ConsoleLine`.
-/

namespace Xv6Prng.SysRead

open ByteWords Halting Fs FileSys OpenFiles

abbrev READ_DATA : ℤ := 5
abbrev READ_TIMING : ℤ := 6
abbrev CONSOLE : ℕ := 1

/-- What `read` uses of a `struct file`; a pipe is known by what it has for the call. -/
structure File where
  type : FdType
  readable : Bool
  ip : Fin NINODE
  off : Word

structure System where
  fs : FileSys.State
  proc : Proc
  user : Word → Byte
  ofile : ℕ → Option File
  readOperations : Word
  readPool : Word
  ticks : Word
  pools : Fin 32 → EntropyPool
  writes : List Word

/-- What the rest of the system leaves for the call. Nothing at all means that it waits for
ever, and `none` inside that the process is killed while it waits. -/
structure Arrivals where
  pipe : Option (Option (List Byte))
  console : List (Option Byte)

abbrev K := EStateM Halt System

def fsys {α : Type} (x : FileSys.M α) : K α := fun s =>
  match x.run s.fs with
  | .ok a fs => .ok a { s with fs := fs }
  | .error e fs => .error e { s with fs := fs }

def store (dst : Word) (b : Byte) : K Unit :=
  modify fun s => { s with user := Function.update s.user dst b, writes := s.writes ++ [dst] }

def memmove (dst : Word) : List Byte → K Unit
  | [] => return ()
  | b :: bytes => do
    store dst b
    memmove (dst + 1) bytes

def pipeCopy (addr n : Word) : Word → List Byte → K Word
  | i, [] => return i
  | i, b :: rest =>
    if i.toInt < n.toInt then do
      store (addr + i) b
      pipeCopy addr n (i + 1) rest
    else return i

def piperead (env : Arrivals) (addr n : Word) : K Word :=
  match env.pipe with
  | none => throw .asleep
  | some none => return -1
  | some (some bytes) => pipeCopy addr n 0 bytes

/-- The loop of `consoleread`: what is left of `n`, or nothing if the process was killed. -/
def consoleLoop : Word → Word → List (Option Byte) → K (Option Word)
  | _, n, [] => if n.toInt > 0 then throw .asleep else return some n
  | dst, n, c :: rest =>
    if n.toInt > 0 then
      match c with
      | none => return none
      | some c =>
        if c = 4 then return some n
        else do
          store dst c
          if c = 10 then return some (n - 1)
          else consoleLoop (dst + 1) (n - 1) rest
    else return some n

def consoleread (env : Arrivals) (ip : Fin NINODE) (dst n : Word) : K Word := do
  fsys (iunlock ip)
  let left ← consoleLoop dst n env.console
  fsys (ilock ip)
  match left with
  | none => return -1
  | some left => return n - left

def readLoop (ip : Fin NINODE) : ℕ → ℕ → ℕ → Word → K Unit
  | 0, _, _, _ => return ()
  | fuel + 1, off, n, dst => do
    if n = 0 then return ()
    else do
      let addr ← fsys (bmap ip (off / BSIZE))
      let bp ← fsys (bread addr)
      let m := min n (BSIZE - off % BSIZE)
      memmove dst ((List.range m).map fun j => byteAt bp (off % BSIZE + j))
      readLoop ip fuel (off + m) (n - m) (dst + BitVec.ofNat 32 m)

/-- The console is the one device with a `read`. -/
def readi (env : Arrivals) (ip : Fin NINODE) (dst off n : Word) : K Word := do
  let s ← get
  let d := (s.fs.icache ip).copy
  if d.type = T_DEV then
    if major? d = some CONSOLE then consoleread env ip dst n else return -1
  else if off > d.size ∨ off + n < off then return -1
  else do
    let n := if off + n > d.size then d.size - off else n
    readLoop ip n.toNat off.toNat n.toNat dst
    return n

/-- The buffer as `addRandomEvent` gets it, which refuses a null pointer. -/
def bufferAt (user : Word → Byte) (addr : Word) : Option (ℕ → Byte) :=
  if addr = 0 then none else some fun i => user (addr + BitVec.ofNat 32 i)

def dataEvent (addr n : Word) (s : System) : RandomEvent :=
  ⟨READ_DATA, (s.readPool.toNat % MAX_POOLS : ℕ), bufferAt s.user addr, n.toInt⟩

def timingEvent (s : System) : RandomEvent :=
  ⟨READ_TIMING, (s.readPool.toNat % MAX_POOLS : ℕ), some fun i => byteOf s.ticks i, 4⟩

/-- The entropy of every eleventh `read`: the buffer as it is before, and the ticks. -/
def countRead (addr n : Word) (s : System) : System :=
  if s.readOperations + 1 > 10 then
    { s with
      pools := (timingEvent s).addTo ((dataEvent addr n s).addTo s.pools),
      readPool := s.readPool + 1, readOperations := 0 }
  else { s with readOperations := s.readOperations + 1 }

def setOff (fd : ℕ) (off : Word) (s : System) : System :=
  { s with ofile := Function.update s.ofile fd ((s.ofile fd).map fun f => { f with off := off }) }

def fileread (env : Arrivals) (fd : ℕ) (f : File) (addr n : Word) : K Word := do
  modify (countRead addr n)
  if f.readable = false then return -1
  else
    match f.type with
    | .pipe => piperead env addr n
    | .inode => do
      fsys (ilock f.ip)
      let r ← readi env f.ip addr f.off n
      if r.toInt > 0 then modify (setOff fd (f.off + r))
      fsys (iunlock f.ip)
      return r
    | .none => throw (.panic "fileread")

def argfd (s : System) (n : ℕ) : Option (ℕ × File) :=
  match argint s.proc s.user n with
  | none => none
  | some fd =>
    if fd.toInt < 0 ∨ fd.toInt ≥ NOFILE then none
    else (s.ofile fd.toNat).map fun f => (fd.toNat, f)

def sysRead (env : Arrivals) : K Word := do
  let s ← get
  match argfd s 0, argint s.proc s.user 2 with
  | some (fd, f), some n =>
    match argptr s.proc s.user 1 n with
    | some p => fileread env fd f p n
    | none => return -1
  | _, _ => return -1

structure Within (R : Word → Prop) (s₀ s : System) : Prop where
  writes : ∀ a ∈ s.writes, a ∈ s₀.writes ∨ R a
  user : ∀ a, s.user a ≠ s₀.user a → R a

variable {dst n : Word}

/-- What one store to `R` keeps, and the file system does not touch. -/
structure Stable (R : Word → Prop) (I : System → Prop) : Prop where
  fs : ∀ s fs, I s → I { s with fs := fs }
  store : ∀ s dst b, R dst → I s →
    I { s with user := Function.update s.user dst b, writes := s.writes ++ [dst] }

theorem within_refl (R : Word → Prop) (s : System) : Within R s s :=
  ⟨fun _ ha => Or.inl ha, fun _ ha => absurd rfl ha⟩

theorem stable_within (R : Word → Prop) (s₀ : System) : Stable R (Within R s₀) where
  fs _ _ hs := ⟨hs.writes, hs.user⟩
  store s dst b h hs := by
    refine ⟨fun a ha => ?_, fun a ha => ?_⟩
    · rcases List.mem_append.mp ha with ha | ha
      · exact hs.writes a ha
      · rw [List.mem_singleton.mp ha]
        exact Or.inr h
    · by_cases hdst : a = dst
      · rwa [hdst]
      · apply hs.user a
        intro heq
        exact ha ((Function.update_of_ne hdst b s.user).trans heq)

theorem stable_mem (a : Word) : Stable (fun _ => True) (fun s => a ∈ s.writes) :=
  ⟨fun _ _ hs => hs, fun _ _ _ _ hs => List.mem_append_left _ hs⟩

section Writes

variable {R : Word → Prop} {I : System → Prop} (hI : Stable R I) {env : Arrivals}

/-- The computation keeps `I`, and so does it if it halts. -/
abbrev Writes (I : System → Prop) {α : Type} (x : K α) : Prop := Keeps I (fun _ => True) x

include hI

theorem writes_fsys {α : Type} (x : FileSys.M α) : Writes I (fsys x) := by
  intro s hs
  rw [Ends, EStateM.run, fsys]
  cases x.run s.fs with
  | ok a fs => exact hI.fs s fs hs
  | error e fs => exact ⟨trivial, hI.fs s fs hs⟩

theorem writes_store (b : Byte) (h : R dst) : Writes I (store dst b) :=
  keeps_modify fun s hs => hI.store s dst b h hs

omit hI in
theorem add_ofNat_succ (dst : Word) (j : ℕ) :
    dst + 1 + BitVec.ofNat 32 j = dst + BitVec.ofNat 32 (j + 1) := by
  rw [Nat.add_comm j 1, BitVec.ofNat_add, BitVec.add_assoc]
  rfl

theorem writes_memmove {bytes : List Byte} (h : ∀ j < bytes.length, R (dst + BitVec.ofNat 32 j)) :
    Writes I (memmove dst bytes) := by
  induction bytes generalizing dst with
  | nil => exact keeps_pure _
  | cons b bytes ih =>
    refine (writes_store hI b (by simpa using h 0 (Nat.zero_lt_succ _))).bind fun _ =>
      ih fun j hj => ?_
    rw [add_ofNat_succ]
    exact h (j + 1) (Nat.succ_lt_succ hj)

theorem writes_pipeCopy {addr : Word}
    (h : ∀ j : ℕ, (j : ℤ) < n.toInt → R (addr + BitVec.ofNat 32 j)) (bytes : List Byte) (i : ℕ)
    (hi : i < 2 ^ 31) : Writes I (pipeCopy addr n (BitVec.ofNat 32 i) bytes) := by
  induction bytes generalizing i with
  | nil => exact keeps_pure _
  | cons b bytes ih =>
    rw [pipeCopy, toInt_ofNat hi]
    split_ifs with hlt
    · have hn : n.toInt < 2 ^ 31 := BitVec.toInt_lt
      have hsucc : BitVec.ofNat 32 i + 1 = BitVec.ofNat 32 (i + 1) := by
        rw [BitVec.ofNat_add]
        rfl
      refine (writes_store hI b (h i hlt)).bind fun _ => ?_
      rw [hsucc]
      exact ih (i + 1) (by omega)
    · exact keeps_pure _

omit hI in
theorem toInt_sub_one (h : n.toInt > 0) : (n - 1).toInt = n.toInt - 1 := by
  have hn : n.toInt < 2 ^ 31 := BitVec.toInt_lt
  rw [BitVec.toInt_sub, show (1 : Word).toInt = 1 from rfl, Int.bmod_eq_of_le (by omega) (by omega)]

theorem writes_consoleLoop (h : ∀ j : ℕ, (j : ℤ) < n.toInt → R (dst + BitVec.ofNat 32 j))
    (events : List (Option Byte)) : Writes I (consoleLoop dst n events) := by
  induction events generalizing dst n with
  | nil =>
    rw [consoleLoop]
    exact Keeps.ite (keeps_throw trivial) (keeps_pure _)
  | cons c events ih =>
    cases c with
    | none =>
      rw [consoleLoop]
      exact Keeps.ite (keeps_pure _) (keeps_pure _)
    | some c =>
      rw [consoleLoop]
      by_cases hn : n.toInt > 0
      · rw [if_pos hn]
        have hstore : R dst := by simpa using h 0 hn
        have hrest : Writes I (consoleLoop (dst + 1) (n - 1) events) := ih fun j hj => by
          rw [toInt_sub_one hn] at hj
          rw [add_ofNat_succ]
          exact h (j + 1) (by omega)
        exact Keeps.ite (keeps_pure _)
          ((writes_store hI c hstore).bind fun _ => Keeps.ite (keeps_pure _) hrest)
      · rw [if_neg hn]
        exact keeps_pure _

theorem writes_piperead {addr : Word}
    (h : ∀ j : ℕ, (j : ℤ) < n.toInt → R (addr + BitVec.ofNat 32 j)) :
    Writes I (piperead env addr n) := by
  rw [piperead]
  split
  · exact keeps_throw trivial
  · exact keeps_pure _
  · exact writes_pipeCopy hI h _ 0 (by decide)

theorem writes_consoleread (ip : Fin NINODE)
    (h : ∀ j : ℕ, (j : ℤ) < n.toInt → R (dst + BitVec.ofNat 32 j)) :
    Writes I (consoleread env ip dst n) := by
  refine (writes_fsys hI _).bind fun _ => (writes_consoleLoop hI h _).bind fun left => ?_
  refine (writes_fsys hI _).bind fun _ => ?_
  cases left with
  | none => exact keeps_pure _
  | some left => exact keeps_pure _

theorem writes_readLoop (ip : Fin NINODE) {fuel off n : ℕ}
    (h : ∀ j < n, R (dst + BitVec.ofNat 32 j)) : Writes I (readLoop ip fuel off n dst) := by
  induction fuel generalizing off n dst with
  | zero => exact keeps_pure _
  | succ fuel ih =>
    rw [readLoop]
    refine Keeps.ite (keeps_pure _) ?_
    refine (writes_fsys hI _).bind fun addr => (writes_fsys hI _).bind fun bp => ?_
    have hm : min n (BSIZE - off % BSIZE) ≤ n := Nat.min_le_left _ _
    refine (writes_memmove hI fun j hj => h j ?_).bind fun _ => ih fun j hj => ?_
    · rw [List.length_map, List.length_range] at hj
      omega
    · rw [BitVec.add_assoc, ← BitVec.ofNat_add]
      exact h _ (by omega)

end Writes

/-- `readi` copies no more than `n` bytes of the inode, as a signed number. -/
def Harmless (off n : Word) (d : Dinode) : Prop :=
  0 ≤ n.toInt ∨ d.type = T_DEV ∨ d.size ≤ off ∨ 2 ^ 32 ≤ off.toNat + n.toNat

section Reads

variable {R : Word → Prop} {s s₀ : System} {env : Arrivals}

theorem toInt_eq_toNat_of_nonneg (h : 0 ≤ n.toInt) : n.toInt = n.toNat := by
  rw [BitVec.toInt_eq_toNat_cond] at h ⊢
  split_ifs at h ⊢ <;> omega

theorem Harmless.clipped_le {off : Word} {d : Dinode} (h : Harmless off n d) (hdev : d.type ≠ T_DEV)
    (hoff : ¬ (off > d.size ∨ off + n < off)) :
    ((if off + n > d.size then d.size - off else n).toNat : ℤ) ≤ max 0 n.toInt := by
  rcases h with hn | hdev' | hsize | hwrap
  · rw [toInt_eq_toNat_of_nonneg hn]
    split_ifs <;> bv_omega
  · exact absurd hdev' hdev
  · split_ifs <;> bv_omega
  · exact absurd (.inr (by bv_omega)) hoff

theorem readi_ends (ip : Fin NINODE) {off : Word} (hs : Within R s₀ s)
    (hd : Harmless off n (s.fs.icache ip).copy)
    (h : ∀ j : ℕ, (j : ℤ) < n.toInt → R (dst + BitVec.ofNat 32 j)) :
    Ends (readi env ip dst off n) s (fun _ => Within R s₀) (fun _ => Within R s₀) := by
  have hI := stable_within R s₀
  refine ends_get_bind ?_
  dsimp only
  by_cases hdev : (s.fs.icache ip).copy.type = T_DEV
  · rw [if_pos hdev]
    exact (Keeps.ite (writes_consoleread hI ip h) (keeps_pure _)).ends hs
  by_cases hoff : off > (s.fs.icache ip).copy.size ∨ off + n < off
  · rw [if_neg hdev, if_pos hoff]
    exact ends_pure hs
  · rw [if_neg hdev, if_neg hoff]
    refine Keeps.ends ((writes_readLoop hI ip fun j hj => h j ?_).bind fun _ => keeps_pure _) hs
    have hle := hd.clipped_le hdev hoff
    omega

theorem countRead_frame (addr n : Word) (s : System) : (countRead addr n s).fs = s.fs ∧
    (countRead addr n s).writes = s.writes ∧ (countRead addr n s).user = s.user := by
  rw [countRead]
  split_ifs
  · exact ⟨rfl, rfl, rfl⟩
  · exact ⟨rfl, rfl, rfl⟩

theorem fsys_ends {α : Type} {x : FileSys.M α} {P : FileSys.State → Prop}
    (h : Ends x s.fs (fun _ => P) (fun _ _ => True)) :
    Ends (fsys x) s (fun _ s' => ∃ fs, P fs ∧ s' = { s with fs := fs })
      (fun _ s' => ∃ fs, s' = { s with fs := fs }) := by
  rw [Ends] at h ⊢
  rw [EStateM.run, fsys]
  cases hx : x.run s.fs with
  | ok a fs =>
    rw [hx] at h
    exact ⟨fs, h, rfl⟩
  | error e fs => exact ⟨fs, rfl⟩

theorem fsys_run {α : Type} {x : FileSys.M α} {a : α} {fs : FileSys.State}
    (h : x.run s.fs = .ok a fs) : (fsys x).run s = .ok a { s with fs := fs } := by
  rw [EStateM.run, fsys, h]

theorem writes_afterRead {I : System → Prop} (hI : Stable R I)
    (hfile : ∀ s ofile, I s → I { s with ofile := ofile }) (fd : ℕ) (f : File) (r : Word) :
    Writes I (do
      if r.toInt > 0 then modify (setOff fd (f.off + r))
      fsys (iunlock f.ip)
      return r : K Word) := by
  have hend : Writes I (do fsys (iunlock f.ip); return r) :=
    (writes_fsys hI _).bind fun _ => keeps_pure _
  dsimp only
  split_ifs
  · exact (keeps_modify fun s hs => hfile s _ hs).bind fun _ => hend
  · exact hend

theorem fileread_ends (fd : ℕ) (f : File) {addr : Word} (hs : Within R s₀ s)
    (hd : f.readable = true → f.type = .inode → Ends (ilock f.ip) s.fs
      (fun _ fs => Harmless f.off n (fs.icache f.ip).copy) (fun _ _ => True))
    (h : ∀ j : ℕ, (j : ℤ) < n.toInt → R (addr + BitVec.ofNat 32 j)) :
    Ends (fileread env fd f addr n) s (fun _ => Within R s₀) (fun _ => Within R s₀) := by
  have hI := stable_within R s₀
  obtain ⟨hfs, hwrites, huser⟩ := countRead_frame addr n s
  have hcount : Within R s₀ (countRead addr n s) := ⟨hwrites ▸ hs.writes, huser ▸ hs.user⟩
  refine ends_modify_bind ?_
  split_ifs with hread
  · exact ends_pure hcount
  cases htype : f.type with
  | none => exact ends_throw hcount
  | pipe => exact (writes_piperead hI h).ends hcount
  | inode =>
    rw [← hfs] at hd
    refine (fsys_ends (hd (by simpa using hread) htype)).bind_imp ?_ ?_
    · rintro _ _ ⟨fs, rfl⟩
      exact hI.fs _ fs hcount
    · rintro _ _ ⟨fs, hfs', rfl⟩
      refine (readi_ends f.ip (hI.fs _ fs hcount) hfs' h).bind fun r s₂ hs₂ => ?_
      exact (writes_afterRead hI (fun _ _ hs => ⟨hs.writes, hs.user⟩) fd f r).ends hs₂

theorem memmove_mem {bytes : List Byte} (h : bytes ≠ []) :
    Ends (memmove dst bytes) s (fun _ s' => dst ∈ s'.writes) (fun _ s' => dst ∈ s'.writes) := by
  cases bytes with
  | nil => exact absurd rfl h
  | cons b bytes =>
    exact ends_modify_bind ((writes_memmove (stable_mem dst) fun _ _ => trivial).ends (by simp))

theorem readLoop_mem {ip : Fin NINODE} {i fuel off n : ℕ} (hwf : WellFormed s.fs)
    (hip : s.fs.Holds ip i) (hfile : (s.fs.inode i).IsFile) (hoff : off < (s.fs.inode i).size.toNat)
    (hfuel : fuel ≠ 0) (hn : n ≠ 0) :
    Ends (readLoop ip fuel off n dst) s (fun _ s' => dst ∈ s'.writes)
      (fun _ s' => dst ∈ s'.writes) := by
  obtain ⟨fuel, rfl⟩ := Nat.exists_eq_succ_of_ne_zero hfuel
  have haddr := hwf.addr_ne_zero (hip.live hwf.mounted hfile) hfile hoff
  have hread : (BitVec.ofNat 32 (s.fs.addr (i, blockSlot (off / BSIZE)))).toNat < FSSIZE := by
    rw [hwf.owns.toNat_addr hwf.mounted haddr]
    exact (hwf.owns.owned.range _ haddr).2.trans_le hwf.mounted.layout.disk
  rw [readLoop, if_neg hn]
  refine Ends.bind_of_eq (fsys_run (bmap_run hwf.mounted hwf.owns hip (lt_MAXFILE_of_addr haddr) haddr))
    (Ends.bind_of_eq (fsys_run (bread_run hread)) ?_)
  refine (memmove_mem ?_).bind fun _ s' hs' =>
    (writes_readLoop (stable_mem dst) ip fun _ _ => trivial).ends hs'
  have hpos := piece_pos off hn
  rw [piece] at hpos
  rw [Ne, List.map_eq_nil_iff, List.range_eq_nil]
  omega

/-- A read that is not harmless stores at least the byte at `addr`. -/
theorem fileread_mem (hwf : WellFormed s.fs) (fd : ℕ) {f : File} (hreadable : f.readable = true)
    (htype : f.type = .inode) (href : 0 < (s.fs.icache f.ip).ref)
    (hbusy : (s.fs.icache f.ip).busy = false)
    (hkind : (s.fs.inode (s.fs.icache f.ip).inum).type = T_DEV ∨
      (s.fs.inode (s.fs.icache f.ip).inum).IsFile)
    (hd : ¬ Harmless f.off n (s.fs.inode (s.fs.icache f.ip).inum)) (addr : Word) :
    Ends (fileread env fd f addr n) s (fun _ s' => addr ∈ s'.writes)
      (fun _ s' => addr ∈ s'.writes) := by
  simp only [Harmless, not_or] at hd
  obtain ⟨hn, hdev, hsize, hwrap⟩ := hd
  have hfile := hkind.resolve_left hdev
  have hview := sameView_lock hwf.mounted href
  have hcopy : ((s.fs.lock f.ip).icache f.ip).copy = s.fs.inode (s.fs.icache f.ip).inum := by
    rw [State.lock, icache_putInode_self]
  have hlock : (fsys (ilock f.ip)).run (countRead addr n s) =
      .ok () { countRead addr n s with fs := s.fs.lock f.ip } := by
    refine fsys_run ?_
    rw [(countRead_frame addr n s).1]
    exact ilock_run hwf.mounted href hbusy hfile.ne_zero
  refine ends_modify_bind ?_
  rw [if_neg (by simp [hreadable])]
  simp only [htype]
  refine Ends.bind_of_eq hlock (Ends.bind (P := fun _ s' => addr ∈ s'.writes) ?_ fun r s' hs' =>
    (writes_afterRead (stable_mem addr) (fun _ _ hs => hs) fd f r).ends hs')
  refine ends_get_bind ?_
  dsimp only
  rw [hcopy, if_neg hdev, if_neg (by bv_omega)]
  have hn0 : n.toNat ≠ 0 := fun h0 => hn (by rw [BitVec.eq_of_toNat_eq (y := 0) h0]; decide)
  have hpos : (if f.off + n > (s.fs.inode (s.fs.icache f.ip).inum).size then
      (s.fs.inode (s.fs.icache f.ip).inum).size - f.off else n).toNat ≠ 0 := by
    split_ifs <;> bv_omega
  have hip : (s.fs.lock f.ip).Holds f.ip (s.fs.icache f.ip).inum :=
    holds_putInode_self.mpr ⟨href, rfl, rfl⟩
  refine (readLoop_mem (hview.wellFormed hwf) hip ?_ ?_ hpos hpos).bind fun _ s' hs' => ends_pure hs'
  · rwa [hview.inode]
  · rw [hview.inode]
    bv_omega

end Reads

/-- The bytes are in user memory from `dst` on. -/
def System.stored (s : System) (dst : Word) : List Byte → System
  | [] => s
  | b :: bytes =>
    { s with user := Function.update s.user dst b, writes := s.writes ++ [dst] }.stored (dst + 1)
      bytes

def System.withFs (s : System) (fs : FileSys.State) : System := { s with fs := fs }

section Contents

variable {s : System} {fs : FileSys.State} {ip : Fin NINODE} {off : Word} {bytes : List Byte}

theorem memmove_run (bytes : List Byte) :
    (memmove dst bytes).run s = .ok () (s.stored dst bytes) := by
  induction bytes generalizing s dst with
  | nil => rfl
  | cons b bytes ih => exact ih

theorem stored_withFs : (s.withFs fs).stored dst bytes = (s.stored dst bytes).withFs fs := by
  induction bytes generalizing s dst with
  | nil => rfl
  | cons b bytes ih => exact ih (s := { s with
      user := Function.update s.user dst b, writes := s.writes ++ [dst] })

theorem stored_append (a b : List Byte) :
    s.stored dst (a ++ b) = (s.stored dst a).stored (dst + BitVec.ofNat 32 a.length) b := by
  induction a generalizing s dst with
  | nil => exact congrArg (fun d => s.stored d b) (BitVec.add_zero dst).symm
  | cons c a ih =>
    refine ih.trans ?_
    rw [add_ofNat_succ]
    rfl

theorem readLoop_run (dst : Word) {fuel off n : ℕ}
    (h : (FileSys.readLoop ip fuel off n).run s.fs = .ok bytes fs) :
    (readLoop ip fuel off n dst).run s = .ok () ((s.stored dst bytes).withFs fs) ∧
      (n ≤ fuel → bytes.length = n) := by
  induction fuel generalizing off n dst s bytes with
  | zero =>
    cases h
    exact ⟨rfl, fun hn => (Nat.le_zero.mp hn).symm⟩
  | succ fuel ih =>
    rw [FileSys.readLoop] at h
    rw [readLoop]
    split_ifs at h ⊢ with hn
    · cases h
      exact ⟨rfl, fun _ => hn.symm⟩
    · obtain ⟨addr, fs₁, hbmap, h⟩ := bind_eq_ok h
      obtain ⟨bp, fs₂, hbread, h⟩ := bind_eq_ok h
      obtain ⟨rest, fs₃, hrest, h⟩ := bind_eq_ok h
      cases h
      have hread := ih (s := (s.withFs fs₂).stored dst
          ((List.range (min n (BSIZE - off % BSIZE))).map fun j => byteAt bp (off % BSIZE + j)))
        (dst + BitVec.ofNat 32 (min n (BSIZE - off % BSIZE))) (by rwa [stored_withFs])
      constructor
      · refine (bind_ok (fsys_run hbmap)).trans ?_
        refine (bind_ok (fsys_run (s := s.withFs fs₁) hbread)).trans ?_
        refine ((bind_ok (memmove_run _)).trans hread.1).trans ?_
        rw [stored_append, stored_withFs, stored_withFs, List.length_map, List.length_range]
        rfl
      · intro hle
        have hpos : 0 < BSIZE - off % BSIZE := Nat.sub_pos_of_lt (Nat.mod_lt _ (by decide))
        rw [List.length_append, hread.2 (by omega), List.length_map, List.length_range]
        omega

/-- What `read` copies of a file is what `readi` returns. -/
theorem readi_run {env : Arrivals} {i : ℕ} (h : WellFormed s.fs) (hip : s.fs.Holds ip i)
    (hfile : (s.fs.inode i).IsFile) :
    (readi env ip dst off n).run s =
      match FileSys.readBytes (s.fs.contents i) off.toNat n.toNat with
      | none => .ok (-1) s
      | some bytes => .ok (BitVec.ofNat 32 bytes.length) (s.stored dst bytes) := by
  have hdev : (s.fs.icache ip).copy.type ≠ T_DEV := by
    rw [← inode_of_holds h.mounted hip]
    exact IsFile.ne_dev hfile
  have hread := FileSys.readi_run h hip hfile off n
  rw [FileSys.readi, get_bind, if_neg hdev] at hread
  rw [readi, get_bind, if_neg hdev]
  by_cases hbad : off > (s.fs.icache ip).copy.size ∨ off + n < off
  · rw [if_pos hbad] at hread ⊢
    injection hread with hnone
    rw [← hnone]
    rfl
  · rw [if_neg hbad] at hread ⊢
    obtain ⟨bytes, fs, hloop, hret⟩ := bind_eq_ok hread
    obtain ⟨hrun, hlen⟩ := readLoop_run dst hloop
    injection hret with hbytes hfs
    rw [← hbytes]
    refine (bind_ok hrun).trans ?_
    dsimp only
    rw [hlen le_rfl, BitVec.ofNat_toNat, BitVec.setWidth_eq, hfs, ← stored_withFs]
    rfl

end Contents

section Turns

variable {ι : Type} [DecidableEq ι] {s : Console.System ι} {p : ι} {x : Console.Reader}
  {killed : Bool}

/-- What a turn of the loop in `ConsoleLine` finds, unless it waits. -/
def seen (s : Console.System ι) (killed : Bool) : Option (Option Byte) :=
  if s.input.readable then some (some s.input.take.1) else if killed then some none else none

def copied (dst : Word) : Option Byte → K Unit
  | some c => if c = 4 then pure () else store dst c
  | none => pure ()

/-- One turn there is one character of the loop here. -/
theorem consoleLoop_turn (hn : x.n.toInt > 0) {c : Option Byte} (hc : seen s killed = some c)
    (dst : Word) (rest : List (Option Byte)) :
    (∃ y, (s.turn p killed x).reader p = some y ∧ consoleLoop dst x.n (c :: rest) =
        copied dst c >>= fun _ => consoleLoop (dst + 1) y.n rest) ∨
    ∃ left, consoleLoop dst x.n (c :: rest) = (copied dst c >>= fun _ => pure left) ∧
      (s.turn p killed x).returned =
        s.returned ++ [(p, match left with | none => -1 | some left => x.target - left)] := by
  rw [seen] at hc
  rw [Console.System.turn, if_pos hn]
  split_ifs at hc with hread hkilled
  · cases hc
    rw [if_neg hread, consoleLoop, if_pos hn]
    dsimp only
    by_cases hd : s.input.take.1 = 4
    · rw [if_pos hd, if_pos hd]
      refine Or.inr ⟨some x.n, ?_, ?_⟩
      · simp [copied, hd]
      · split_ifs <;> rfl
    · rw [if_neg hd, if_neg hd, copied, if_neg hd]
      by_cases hnl : s.input.take.1 = 10
      · rw [if_pos hnl, if_pos hnl]
        exact Or.inr ⟨some (x.n - 1), rfl, rfl⟩
      · rw [if_neg hnl, if_neg hnl]
        exact Or.inl ⟨_, Function.update_self .., rfl⟩
  · cases hc
    rw [if_pos (not_not.mp hread), if_pos hkilled, consoleLoop, if_pos hn]
    exact Or.inr ⟨none, rfl, rfl⟩

end Turns

def Target (sz p n : Word) (a : Word) : Prop :=
  p.toNat ≤ a.toNat ∧ (a.toNat : ℤ) < p.toNat + n.toInt ∧ a < sz

def Contained (sz p n : Word) : Prop :=
  ∀ a : ℤ, p.toNat ≤ a → a < p.toNat + n.toInt → a < sz.toNat

/-- Nothing outside the range is written, and a call with a range that is not in the process
writes nothing at all and returns -1. -/
structure SafeRead (env : Arrivals) (s : System) : Prop where
  inside : ∀ p n, argint s.proc s.user 1 = some p → argint s.proc s.user 2 = some n →
    Ends (sysRead env) s (fun _ => Within (Target s.proc.sz p n) s)
      (fun _ => Within (Target s.proc.sz p n) s)
  refused : ∀ p n, argint s.proc s.user 1 = some p → argint s.proc s.user 2 = some n →
    ¬ Contained s.proc.sz p n → (sysRead env).run s = .ok (-1) s
  unfetched : argint s.proc s.user 1 = none ∨ argint s.proc s.user 2 = none →
    (sysRead env).run s = .ok (-1) s

/-- The arguments of a call that gets to the file. -/
structure Passed (s : System) (fd : ℕ) (f : File) (p n : Word) : Prop where
  file : argfd s 0 = some (fd, f)
  len : argint s.proc s.user 2 = some n
  ptr : argptr s.proc s.user 1 n = some p

/-- What the kernel keeps of the file system and of an open inode that nobody has locked. -/
structure Kept (s : System) : Prop where
  fs : WellFormed s.fs
  opened : ∀ fd f, s.ofile fd = some f → f.type = .inode → 0 < (s.fs.icache f.ip).ref ∧
    (s.fs.icache f.ip).busy = false ∧ ((s.fs.inode (s.fs.icache f.ip).inum).type = T_DEV ∨
      (s.fs.inode (s.fs.icache f.ip).inum).IsFile)
  fresh : s.writes = []

section Safe

variable {env : Arrivals} {s : System} {fd : ℕ} {f : File} {p : Word}

theorem sysRead_of_argptr
    (h : ∀ n, argint s.proc s.user 2 = some n → argptr s.proc s.user 1 n = none) :
    (sysRead env).run s = .ok (-1) s := by
  rw [sysRead, get_bind]
  split
  · rename_i fd f n hfd hn
    rw [h n hn]
    rfl
  · rfl

theorem Passed.run (h : Passed s fd f p n) :
    (sysRead env).run s = (fileread env fd f p n).run s := by
  rw [sysRead, get_bind, h.file, h.len]
  dsimp only
  rw [h.ptr]

theorem target_of_passesCheck {sz p : Word} (hsz : sz ≤ KERNBASE)
    (h : PassesCheck p.toNat n.toNat sz) :
    Contained sz p n ∧ ∀ j : ℕ, (j : ℤ) < n.toInt → Target sz p n (p + BitVec.ofNat 32 j) := by
  by_cases hn : 0 ≤ n.toInt
  · have hnat : n.toInt = n.toNat := toInt_eq_toNat_of_nonneg hn
    have hlt : n.toInt < 2 ^ 31 := BitVec.toInt_lt
    have hsz' : sz.toNat ≤ 2 ^ 31 := hsz
    obtain ⟨hp, hend⟩ := h
    rw [Nat.mod_eq_of_lt (by omega)] at hend
    refine ⟨fun a _ ha => by omega, fun j hj => ?_⟩
    have hadd : (p + BitVec.ofNat 32 j).toNat = p.toNat + j := by
      rw [BitVec.toNat_add, BitVec.toNat_ofNat]
      omega
    refine ⟨by omega, by omega, ?_⟩
    rw [BitVec.lt_def]
    omega
  · exact ⟨fun a _ ha => by omega, fun j hj => by omega⟩

theorem safeRead_of_harmless (hsz : s.proc.sz ≤ KERNBASE)
    (h : ∀ fd f p n, Passed s fd f p n → f.readable = true → f.type = .inode →
      Ends (ilock f.ip) s.fs (fun _ fs => Harmless f.off n (fs.icache f.ip).copy) (fun _ _ => True)) :
    SafeRead env s where
  inside p n hp harg := by
    refine ends_get_bind ?_
    split
    · rename_i fd f n' hfd harg'
      obtain rfl : n = n' := Option.some.inj (harg.symm.trans harg')
      cases hptr : argptr s.proc s.user 1 n with
      | none => exact within_refl _ s
      | some q =>
        obtain ⟨hq, hcheck⟩ := argptr_eq_some.mp hptr
        obtain rfl : p = q := Option.some.inj (hp.symm.trans hq)
        exact fileread_ends fd f (within_refl _ s) (h fd f p n ⟨hfd, harg, hptr⟩)
          (target_of_passesCheck hsz hcheck).2
    · exact within_refl _ s
  refused p n hp harg hnot := by
    refine sysRead_of_argptr fun n' harg' => ?_
    obtain rfl : n = n' := Option.some.inj (harg.symm.trans harg')
    cases hptr : argptr s.proc s.user 1 n with
    | none => rfl
    | some q =>
      obtain ⟨hq, hcheck⟩ := argptr_eq_some.mp hptr
      obtain rfl : p = q := Option.some.inj (hp.symm.trans hq)
      exact absurd (target_of_passesCheck hsz hcheck).1 hnot
  unfetched h := by
    refine sysRead_of_argptr fun n harg => ?_
    rw [harg] at h
    rw [argptr, h.resolve_right (by simp)]

theorem ofile_of_argfd (h : argfd s 0 = some (fd, f)) : s.ofile fd = some f := by
  rw [argfd] at h
  split at h
  · cases h
  · split_ifs at h
    obtain ⟨g, hg, heq⟩ := Option.map_eq_some_iff.mp h
    cases heq
    exact hg

theorem not_safeRead_of_mem (hp : Passed s fd f p n) (hn : n.toInt < 0) (hfresh : s.writes = [])
    (hmem : Ends (fileread env fd f p n) s (fun _ s' => p ∈ s'.writes) (fun _ s' => p ∈ s'.writes)) :
    ¬ SafeRead env s := by
  intro hsafe
  have hin := hsafe.inside p n (argptr_eq_some.mp hp.ptr).1 hp.len
  have hnot {s' : System} (hw : Within (Target s.proc.sz p n) s s') : p ∉ s'.writes := by
    intro hw'
    rcases hw.writes p hw' with hold | htarget
    · rw [hfresh] at hold
      exact absurd hold List.not_mem_nil
    · have hlt := htarget.2.1
      omega
  rw [Ends, hp.run] at hin
  rw [Ends] at hmem
  cases hrun : (fileread env fd f p n).run s with
  | ok r s' =>
    rw [hrun] at hin hmem
    exact hnot hin hmem
  | error e s' =>
    rw [hrun] at hin hmem
    exact hnot hin hmem

end Safe

/-- A length that is not negative is safe in every state. A negative one is, where the kernel keeps
its files, unless the call gets to a readable file or directory that has bytes after the offset,
and the offset is smaller than the length without its sign. -/
theorem sysRead_safe (env : Arrivals) (s : System) (hsz : s.proc.sz ≤ KERNBASE) :
    ((∀ n, argint s.proc s.user 2 = some n → 0 ≤ n.toInt) → SafeRead env s) ∧
    (Kept s → (SafeRead env s ↔ ∀ fd f p n, Passed s fd f p n → f.readable = true →
      f.type = .inode → Harmless f.off n (s.fs.inode (s.fs.icache f.ip).inum))) := by
  refine ⟨fun hn => safeRead_of_harmless hsz fun fd f p n hp _ _ => ?_,
    fun hk => ⟨fun hsafe fd f p n hp hread htype => ?_,
      fun h => safeRead_of_harmless hsz fun fd f p n hp hread htype => ?_⟩⟩
  · rw [Ends]
    split
    · exact .inl (hn n hp.len)
    · trivial
  · by_contra hd
    obtain ⟨href, hbusy, hkind⟩ := hk.opened fd f (ofile_of_argfd hp.file) htype
    exact not_safeRead_of_mem hp (lt_of_not_ge fun hn => hd (.inl hn)) hk.fresh
      (fileread_mem hk.fs fd hread htype href hbusy hkind hd p) hsafe
  · obtain ⟨href, -, -⟩ := hk.opened fd f (ofile_of_argfd hp.file) htype
    refine (ilock_ends hk.fs.mounted href).mono ?_ fun _ _ _ => trivial
    rintro _ _ ⟨rfl, -⟩
    rw [State.lock, icache_putInode_self]
    exact h fd f p n hp hread htype

/-- The small image with its root directory open at `off` as descriptor 0 of a process of one
page. -/
def rootOpen (off p n : Word) : System where
  fs := (((idleState 60).fresh 1 1).lock 1).unlock 1
  proc := ⟨0x1000, 0⟩
  user a :=
    if 8 ≤ a ∧ a < 12 then byteOf p (a.toNat - 8)
    else if 12 ≤ a ∧ a < 16 then byteOf n (a.toNat - 12)
    else 0
  ofile fd := if fd = 0 then some ⟨.inode, true, 1, off⟩ else none
  readOperations := 0
  readPool := 0
  ticks := 0
  pools _ := .empty
  writes := []

def noArrivals : Arrivals := ⟨none, []⟩

theorem sameView_root : SameView (idleState 60) ((((idleState 60).fresh 1 1).lock 1).unlock 1) := by
  have hm : Mounted (idleState 60) := (resting_idle (by decide) (by decide)).wf.mounted
  have hfresh : SameView (idleState 60) ((idleState 60).fresh 1 1) :=
    sameView_fresh hm (by decide +kernel) (by decide +kernel) (by decide +kernel)
  have hlock : SameView ((idleState 60).fresh 1 1) (((idleState 60).fresh 1 1).lock 1) :=
    sameView_lock hfresh.mounted (by decide +kernel)
  exact (hfresh.trans hlock).trans (sameView_unlock hlock.mounted)

theorem inode_root (off p n : Word) : (rootOpen off p n).fs.inode 1 = smallRoot := by
  have hm : Mounted (smallState 60) := mounted_small (by decide) (by decide)
  have hunlock : SameView (smallState 60) ((smallState 60).unlock 0) := sameView_unlock hm
  exact (sameView_root.inode 1).trans ((hunlock.inode 1).trans inode_small_one)

theorem kept_root (off p n : Word) : Kept (rootOpen off p n) where
  fs := sameView_root.wellFormed (resting_idle (by decide) (by decide)).wf
  opened fd f hf _ := by
    simp only [rootOpen] at hf
    split_ifs at hf
    cases hf
    refine ⟨Nat.one_pos, rfl, .inr ?_⟩
    rw [show ((rootOpen off p n).fs.icache 1).inum = 1 from rfl, inode_root]
    exact .inr rfl
  fresh := rfl

theorem sysRead_safe_root :
    SafeRead noArrivals (rootOpen 0 0x100 48) ∧ SafeRead noArrivals (rootOpen 48 0xFFF (-1)) := by
  refine ⟨(sysRead_safe noArrivals _ (by decide)).1 fun n hn => ?_,
    ((sysRead_safe noArrivals _ (by decide)).2 (kept_root _ _ _)).mpr fun fd f p n hp _ _ => ?_⟩
  · have hargs : argint (rootOpen 0 0x100 48).proc (rootOpen 0 0x100 48).user 2 = some 48 := by decide
    obtain rfl := Option.some.inj (hargs.symm.trans hn)
    decide
  · have hf := ofile_of_argfd hp.file
    simp only [rootOpen] at hf
    split_ifs at hf
    cases hf
    rw [show ((rootOpen 48 0xFFF (-1)).fs.icache 1).inum = 1 from rfl, inode_root]
    exact .inr (.inr (.inl (by decide)))

/-- A length of -1 from the last byte of the process on passes the checks, and the whole
directory is copied. -/
theorem not_sysRead_safe_root :
    (rootOpen 0 0xFFF (-1)).proc.sz ≤ KERNBASE ∧
    Returns (sysRead noArrivals) (rootOpen 0 0xFFF (-1)) (fun r s' => r = 48 ∧ 0x1000 ∈ s'.writes) ∧
    ¬ SafeRead noArrivals (rootOpen 0 0xFFF (-1)) := by
  have hrun : Returns (sysRead noArrivals) (rootOpen 0 0xFFF (-1)) (fun r s' =>
      decide (r = 48 ∧ 0x1000 ∈ s'.writes) = true) := returns_of_returnsWith (by decide +kernel)
  have hkept := kept_root 0 0xFFF (-1)
  have hpassed : Passed (rootOpen 0 0xFFF (-1)) 0 ⟨.inode, true, 1, 0⟩ 0xFFF (-1) :=
    ⟨by rfl, by decide, by decide⟩
  obtain ⟨href, hbusy, hkind⟩ := hkept.opened 0 ⟨.inode, true, 1, 0⟩ rfl rfl
  refine ⟨by decide, hrun.mono fun _ _ h => of_decide_eq_true h, ?_⟩
  refine not_safeRead_of_mem hpassed (by decide) rfl
    (fileread_mem hkept.fs 0 rfl rfl href hbusy hkind ?_ 0xFFF)
  rw [show ((rootOpen 0 0xFFF (-1)).fs.icache 1).inum = 1 from rfl, inode_root]
  simp only [Harmless]
  decide

end Xv6Prng.SysRead
