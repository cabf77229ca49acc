import Xv6Prng.Delivery
import Xv6Prng.Frame

/-!
# The system call `random`

`sys_random` ignores the results of `argint` and `argptr`. A fetch that fails stores
nothing, so the local it was to fill is read unset; the model's run stops there. The
bound on the size is not checked before `prngranddata`, which panics.

`ArgsChecked` is what the call should do with its arguments. Whether it holds in every
seeded state is decided by the arguments and the size of the process alone.
-/

namespace Xv6Prng

open ByteWords Halting Ownership

variable {L : Layout}

section Arguments

variable (proc : Proc) (user : Word → Byte)

def fetchint (addr : Word) : Option Word :=
  if addr ≥ proc.sz ∨ addr + 4 > proc.sz then none
  else some (ofBytes (user addr) (user (addr + 1)) (user (addr + 2)) (user (addr + 3)))

def argint (n : ℕ) : Option Word := fetchint proc user (proc.esp + 4 + BitVec.ofNat 32 (4 * n))

def argptr (n : ℕ) (size : Word) : Option Word :=
  match argint proc user n with
  | none => none
  | some i => if i ≥ proc.sz ∨ i + size > proc.sz then none else some i

end Arguments

/-- The read of a local of `sys_random`, which only a fetch sets. -/
def readLocal (x : Option Word) : KernelM L Word :=
  match x with
  | some w => pure w
  | none => throw (.undefined .uninitialised)

/-- The sum of the bytes below the size; `behind` is the memory after the array. -/
def EntropyPool.dataSum (pool : EntropyPool) (behind : ℕ → Byte) : Word :=
  (List.range pool.size.toInt.toNat).foldl
    (fun sum j => sum + ((load? pool.entropy j).getD (behind j)).signExtend 32) 0

/-- The arguments of the lines that `printPoolsData` prints: pool, size and sum. -/
def printPoolsData (behind : Fin 32 → ℕ → Byte) : KernelM L (List (Fin 32 × ℤ × Word)) := do
  let s ← get
  return (List.finRange MAX_POOLS).map fun i =>
    (i, (s.entropy.pools i).size.toInt, (s.entropy.pools i).dataSum (behind i))

def sysRandom (behind : Fin 32 → ℕ → Byte) : KernelM L ℤ := do
  let s ← get
  let numbytes ← readLocal (argint s.proc s.user 1)
  if numbytes.toInt < 0 then return -1
  else do
    let bytesout ← readLocal (argptr s.proc s.user 0 numbytes)
    if bytesout = 0 then return -1
    else do
      let _ ← printPoolsData behind
      prngrand bytesout numbytes.toInt
      return 0

def Untouched (user : Word → Byte) (output : Word) (n : ℕ) (s : Kernel L) : Prop :=
  ∀ x, n ≤ (x - output).toNat → s.user x = user x

def NotSizePanic (e : Stop) : Prop :=
  e ≠ .panic "prngranddata: requested negative or too much data."

section Writes

variable {user : Word → Byte} {output : Word} {n : ℕ}

variable (user output n) in
theorem untouched_stable :
    StablePrng (Untouched (L := L) user output n) NotSizePanic where
  locks _ _ h := h
  entropy _ _ h := h
  heap _ _ h := h
  prng _ _ h := h
  undefined _ := by simp [NotSizePanic]
  panic _ h := by simpa [NotSizePanic] using h

theorem copyToUser_keeps {off len : ℕ} (src : Word) (hlen : off + len ≤ n) (hn : n ≤ 2 ^ 20) :
    Keeps (Untouched (L := L) user output n) NotSizePanic
      (copyToUser (output + BitVec.ofNat 32 off) src len) := by
  have hI := untouched_stable (L := L) user output n
  rw [copyToUser]
  split
  · exact keeps_pure _
  refine (pageAt_keeps hI.toStable src).bind fun p => ?_
  refine keeps_get_bind fun s hs => ?_
  split
  · intro x hx
    have hout : ¬ (x - (output + BitVec.ofNat 32 off)).toNat < len := by
      have hsub : x - (output + BitVec.ofNat 32 off) = (x - output) - BitVec.ofNat 32 off := by
        rw [sub_add_eq_sub_sub]
      rw [hsub, BitVec.toNat_sub, BitVec.toNat_ofNat]
      omega
    exact (if_neg hout).trans (hs x hx)
  · exact keeps_throw (hI.undefined _) s hs

theorem copyOut_keeps (dataPtrPage : PageAddr L) {i left : ℕ} (h : left + 4096 * i = n)
    (hn : n ≤ 2 ^ 20) (s : Kernel L) (hs : Untouched user output n s) :
    Ends (copyOut output dataPtrPage i left) s
      (AfterTurn (fun _ => Untouched user output n)
        fun left' s' => left' + 4096 * (i + 1) = n ∧ Untouched user output n s')
      (fun e s' => NotSizePanic e ∧ Untouched user output n s') := by
  have hI := untouched_stable (L := L) user output n
  refine (loadPtr_keeps hI.toStable dataPtrPage i s hs).bind fun page s₁ h₁ => ?_
  split
  · refine (copyToUser_keeps page (by omega) hn s₁ h₁).bind fun _ s₂ h₂ => ?_
    exact (kfree_keeps hI.toStable page s₂ h₂).bind fun _ s₃ h₃ => ends_pure h₃
  · refine (copyToUser_keeps page (by omega) hn s₁ h₁).bind fun _ s₂ h₂ => ?_
    refine (kfree_keeps hI.toStable page s₂ h₂).bind fun _ s₃ h₃ => ends_pure ⟨?_, h₃⟩
    omega

theorem generate_keeps (hn : n ≤ 2 ^ 20) :
    Keeps (Untouched (L := L) user output n) NotSizePanic (generate output n) := by
  have hI := untouched_stable (L := L) user output n
  refine keeps_get.bind fun s => (keeps_throw (hI.panic _ (by decide))).ite ?_
  refine (zalloc_keeps hI.toStable (by decide)).bind fun page => ?_
  refine (prngranddata_keeps hI (by omega) (by exact_mod_cast hn) _).bind fun _ => ?_
  refine Keeps.bind (fun s hs => ?_) fun _ => kfree_keeps hI.toStable page.val
  refine forBreak_ends (fun i left s' => left + 4096 * i = n ∧ Untouched user output n s')
    ⟨by simp, hs⟩ (fun i left s' _ _ h' => copyOut_keeps page h'.1 hn s' h'.2) fun _ _ h' => h'.2

theorem prngrand_keeps (hn : n ≤ 2 ^ 20) :
    Keeps (Untouched (L := L) user output n) NotSizePanic (prngrand output n) :=
  (readTicks_keeps (untouched_stable user output n)).bind fun _ =>
  (maybeReseed_keeps (untouched_stable user output n) _).bind fun _ => generate_keeps hn

end Writes

section Paths

variable {s : Kernel L} {behind : Fin 32 → ℕ → Byte} {n p : Word}

theorem readLocal_some (w : Word) (s : Kernel L) : (readLocal (some w)).run s = .ok w s := rfl

theorem printPoolsData_apply (behind : Fin 32 → ℕ → Byte) (s : Kernel L) :
    ∃ lines, (printPoolsData behind).run s = .ok lines s := ⟨_, rfl⟩

theorem sysRandom_unset_size (h : argint s.proc s.user 1 = none) :
    (sysRandom behind).run s = .error (.undefined .uninitialised) s := by
  rw [sysRandom, get_bind, h]
  rfl

theorem sysRandom_negative (h : argint s.proc s.user 1 = some n) (hn : n.toInt < 0) :
    (sysRandom behind).run s = .ok (-1) s := by
  rw [sysRandom, get_bind, h, bind_ok (readLocal_some n s), if_pos hn]
  rfl

theorem sysRandom_unset_ptr (h : argint s.proc s.user 1 = some n) (hn : ¬ n.toInt < 0)
    (hp : argptr s.proc s.user 0 n = none) :
    (sysRandom behind).run s = .error (.undefined .uninitialised) s := by
  rw [sysRandom, get_bind, h, bind_ok (readLocal_some n s), if_neg hn, hp]
  rfl

theorem sysRandom_null (h : argint s.proc s.user 1 = some n) (hn : ¬ n.toInt < 0)
    (hp : argptr s.proc s.user 0 n = some 0) : (sysRandom behind).run s = .ok (-1) s := by
  rw [sysRandom, get_bind, h, bind_ok (readLocal_some n s), if_neg hn, hp]
  rfl

theorem sysRandom_call (behind : Fin 32 → ℕ → Byte) (h : argint s.proc s.user 1 = some n)
    (hn : ¬ n.toInt < 0) (hp : argptr s.proc s.user 0 n = some p) (hp0 : p ≠ 0) :
    (sysRandom behind).run s = (prngrand p n.toInt >>= fun _ => pure 0).run s := by
  obtain ⟨lines, hprint⟩ := printPoolsData_apply behind s
  rw [sysRandom, get_bind, h, bind_ok (readLocal_some n s), if_neg hn, hp,
    bind_ok (readLocal_some p s), if_neg hp0, bind_ok hprint]

end Paths

def WritesOnly (s s' : Kernel L) (p n : Word) : Prop :=
  ∀ x : Word, ¬ (p.toNat ≤ x.toNat ∧ x.toNat < p.toNat + n.toNat) → s'.user x = s.user x

/-- The call returns -1 and changes nothing, or goes on to `prngrand` with a range that was
fetched and lies in the process, to which it keeps, and past the size check. -/
def ArgsChecked (behind : Fin 32 → ℕ → Byte) (s : Kernel L) : Prop :=
  (Returns (sysRandom behind) s fun r s' => r = -1 ∧ s' = s) ∨
  ∃ n p, argint s.proc s.user 1 = some n ∧ argptr s.proc s.user 0 n = some p ∧
    p.toNat + n.toNat ≤ s.proc.sz.toNat ∧
    (sysRandom behind).run s = (prngrand p n.toInt >>= fun _ => pure 0).run s ∧
    Ends (prngrand p n.toInt) s (fun _ s' => WritesOnly s s' p n)
      (fun e s' => NotSizePanic e ∧ WritesOnly s s' p n)

/-- The size was fetched and is negative, or the pointer was fetched too and is null, or
the size is within the limit and the range within the process. -/
def ArgsInRange (proc : Proc) (user : Word → Byte) : Prop :=
  ∃ n, argint proc user 1 = some n ∧ (n.toInt < 0 ∨ ∃ p, argptr proc user 0 n = some p ∧
    (p = 0 ∨ n.toInt ≤ 2 ^ 20 ∧ p.toNat + n.toNat ≤ proc.sz.toNat))

theorem toInt_eq_toNat {n : Word} (hn : ¬ n.toInt < 0) : n.toInt = n.toNat := by
  have hlt := n.isLt
  rw [BitVec.toInt_eq_toNat_cond] at hn ⊢
  split <;> omega

variable {s : Kernel L}

theorem argsChecked_of_inRange (behind : Fin 32 → ℕ → Byte)
    (h : ArgsInRange s.proc s.user) : ArgsChecked behind s := by
  obtain ⟨n, hn, hneg | ⟨p, hp, hrange⟩⟩ := h
  · exact Or.inl (returns_of_eq (sysRandom_negative hn hneg) ⟨rfl, rfl⟩)
  by_cases hneg : n.toInt < 0
  · exact Or.inl (returns_of_eq (sysRandom_negative hn hneg) ⟨rfl, rfl⟩)
  by_cases hp0 : p = 0
  · subst hp0
    exact Or.inl (returns_of_eq (sysRandom_null hn hneg hp) ⟨rfl, rfl⟩)
  obtain ⟨hsize, hfit⟩ := hrange.resolve_left hp0
  refine Or.inr ⟨n, p, hn, hp, hfit, sysRandom_call behind hn hneg hp hp0, ?_⟩
  rw [toInt_eq_toNat hneg] at hsize ⊢
  have hsz := s.proc.sz.isLt
  have hwrites (s' : Kernel L) (h' : Untouched s.user p n.toNat s') : WritesOnly s s' p n := by
    intro x hx
    have hlt := x.isLt
    apply h' x
    rw [BitVec.toNat_sub]
    omega
  exact (prngrand_keeps (by exact_mod_cast hsize) s fun x _ => rfl).mono
    (fun _ s' h' => hwrites s' h') fun _ s' h' => ⟨h'.1, hwrites s' h'.2⟩

def Kernel.calling (proc : Proc) (user : Word → Byte) : Kernel .least :=
  { Kernel.atRest Prng.seeded FreeList.least with proc := proc, user := user }

theorem calling_seeded (proc : Proc) (user : Word → Byte) :
    (Kernel.calling proc user).prng.reseedCtr ≠ 0 ∧
      (Kernel.calling proc user).prng.counter.c0 ≠ 0 := by
  have hseeded : Prng.seeded.reseedCtr ≠ 0 ∧ Prng.seeded.counter.c0 ≠ 0 := by decide
  exact hseeded

theorem calling_notDue (proc : Proc) (user : Word → Byte) (xticks last : Word) :
    ¬ reseedDue ((Kernel.calling proc user).entropy.pools 0) xticks last := by
  have hempty : ¬ EntropyPool.empty.size.toInt > MIN_SIZE_POOL := by decide
  exact fun hd => hempty hd.1

theorem prngrand_tooMuch (proc : Proc) (user : Word → Byte) (p : Word) {n : ℤ}
    (hn : 2 ^ 20 < n) :
    Stops (prngrand p n) (Kernel.calling proc user) fun e _ =>
      e = .panic "prngranddata: requested negative or too much data." := by
  have hs : (Kernel.calling proc user).Unlocked := fun _ => rfl
  have hpanic : Stops (generate p n) (Kernel.calling proc user) fun e _ =>
      e = .panic "prngranddata: requested negative or too much data." := by
    apply stops_get_bind
    rw [if_neg (calling_seeded proc user).1]
    refine (zalloc_sees _ ⟨hs, rfl⟩ rfl).stops_bind fun d s₁ _ => ?_
    rw [prngranddata, if_pos (Or.inr hn)]
    exact Stops.bind (stops_throw rfl)
  rw [Stops, prngrand_eq_generate hs (calling_notDue proc user _ _)]
  exact hpanic

variable {behind : Fin 32 → ℕ → Byte}

theorem not_argsChecked_of_tooMuch {proc : Proc} {user : Word → Byte} {n p : Word}
    (hn : argint proc user 1 = some n)
    (hp : argptr proc user 0 n = some p) (hp0 : p ≠ 0) (hsize : 2 ^ 20 < n.toInt) :
    ¬ ArgsChecked behind (Kernel.calling proc user) := by
  have hstop := prngrand_tooMuch proc user p hsize
  have hcall := sysRandom_call behind (s := Kernel.calling proc user) hn
    (by omega) hp hp0
  rintro (hret | ⟨n', p', hn', hp', -, -, hends⟩)
  · rw [Returns, hcall] at hret
    exact hstop.bind.not_returns hret
  · obtain rfl := Option.some.inj (hn.symm.trans hn')
    obtain rfl := Option.some.inj (hp.symm.trans hp')
    obtain ⟨e, s', rfl, he, -⟩ := hends.of_stops hstop
    exact he rfl

theorem not_argsChecked_of_unset
    (hrun : (sysRandom behind).run s = .error (.undefined .uninitialised) s)
    (hunset : ∀ n p, argint s.proc s.user 1 = some n → argptr s.proc s.user 0 n ≠ some p) :
    ¬ ArgsChecked behind s := by
  rintro (⟨r, s', hret, -⟩ | ⟨n, p, hn, hp, -⟩)
  · rw [hrun] at hret
    cases hret
  · exact hunset n p hn hp

theorem not_argsChecked_of_outside {n p : Word}
    (hn : argint s.proc s.user 1 = some n) (hneg : ¬ n.toInt < 0)
    (hp : argptr s.proc s.user 0 n = some p) (hp0 : p ≠ 0)
    (hfit : ¬ p.toNat + n.toNat ≤ s.proc.sz.toNat) : ¬ ArgsChecked behind s := by
  rintro (⟨r, s', hret, hr, -⟩ | ⟨n', p', hn', hp', hfit', -⟩)
  · rw [sysRandom_call behind hn hneg hp hp0] at hret
    obtain ⟨_, _, -, hpure⟩ := bind_eq_ok hret
    cases hpure
    cases hr
  · obtain rfl := Option.some.inj (hn.symm.trans hn')
    obtain rfl := Option.some.inj (hp.symm.trans hp')
    exact hfit hfit'

theorem argsChecked_iff (proc : Proc) (user : Word → Byte) :
    (∀ (L : Layout) (s : Kernel L) (behind : Fin 32 → ℕ → Byte), s.prng.reseedCtr ≠ 0 →
      s.prng.counter.c0 ≠ 0 → s.proc = proc → s.user = user → ArgsChecked behind s) ↔
      ArgsInRange proc user := by
  constructor
  · intro hall
    obtain ⟨hreseeded, hseeded⟩ := calling_seeded proc user
    have h := hall .least (Kernel.calling proc user) (fun _ _ => 0) hreseeded hseeded rfl rfl
    cases hn : argint proc user 1 with
    | none =>
      refine absurd h (not_argsChecked_of_unset (sysRandom_unset_size hn) fun n p hn' => ?_)
      cases hn.symm.trans hn'
    | some n =>
      refine ⟨n, hn, ?_⟩
      by_contra hrange
      obtain ⟨hneg, hrange⟩ := not_or.mp hrange
      cases hp : argptr proc user 0 n with
      | none =>
        refine absurd h (not_argsChecked_of_unset (sysRandom_unset_ptr hn hneg hp) ?_)
        intro n' p' hn' hp'
        obtain rfl := Option.some.inj (hn.symm.trans hn')
        cases hp.symm.trans hp'
      | some p =>
        have hp0 : p ≠ 0 := fun h0 => hrange ⟨p, hp, Or.inl h0⟩
        by_cases hsize : n.toInt ≤ 2 ^ 20
        · exact absurd h (not_argsChecked_of_outside hn hneg hp hp0 fun hfit =>
            hrange ⟨p, hp, Or.inr ⟨hsize, hfit⟩⟩)
        · exact absurd h (not_argsChecked_of_tooMuch hn hp hp0 (by omega))
  · intro h L s behind _ _ hproc huser
    subst hproc huser
    exact argsChecked_of_inRange behind h

def largeRequest : Word → Byte := fun a =>
  if a = 0x2005 then 0x30 else if a = 0x2008 then 1 else if a = 0x200A then 0x10 else 0

/-- One byte more than the limit, asked for by a process of 4 MiB. -/
theorem not_argsChecked_large :
    ¬ ArgsChecked (fun _ _ => 0) (Kernel.calling ⟨0x400000, 0x2000⟩ largeRequest) :=
  not_argsChecked_of_tooMuch (n := 0x100001) (p := 0x3000) (by decide) (by decide) (by decide)
    (by decide)

end Xv6Prng
