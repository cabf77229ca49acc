import Xv6Prng.Ctr
import Xv6Prng.SysRandom

/-!
# The system calls `encrypt` and `decrypt`

Both calls check their arguments with `argptr` and hand them to counter mode. The end of
a range is computed in 32 bits, the key is checked for 8 bytes where 32 are read, and the
length of the sequence is rounded up to the next multiple of 16 even where it is one.
-/

namespace Xv6Prng

open ByteWords Halting Aes

structure CtrArgs where
  input : Word
  output : Word
  size : Word
  sequence : Word
  key : Word
  deriving DecidableEq

/-- `size + BLOCK_LENGTH - (size%BLOCK_LENGTH)`. -/
def sequenceSize (size : Word) : Word := size + 16 - size % 16

section Calls

variable (proc : Proc) (user : Word → Byte)

def checkArgs : Option CtrArgs := do
  let size ← argint proc user 2
  let input ← argptr proc user 0 size
  let output ← argptr proc user 1 size
  let sequence ← argptr proc user 3 (sequenceSize size)
  let key ← argptr proc user 4 (BitVec.ofNat 32 AES_256_KEY_SIZE)
  return ⟨input, output, size, sequence, key⟩

def fetchArgs : Option CtrArgs := do
  let input ← argint proc user 0
  let output ← argint proc user 1
  let size ← argint proc user 2
  let sequence ← argint proc user 3
  let key ← argint proc user 4
  return ⟨input, output, size, sequence, key⟩

end Calls

def encryptArgs (stack : Buffer 16) (a : CtrArgs) : CtrM Unit :=
  ctrEncrypt stack a.input a.output a.size.toNat a.sequence a.key AES_256_KEY_SIZE

def decryptArgs (stack : Buffer 16) (a : CtrArgs) : CtrM Unit :=
  ctrDecrypt stack a.input a.output a.size.toNat a.sequence a.key AES_256_KEY_SIZE

def sysEncrypt (proc : Proc) (stack : Buffer 16) : CtrM ℤ := do
  match checkArgs proc (← get).byte with
  | none => return -1
  | some a => do
    encryptArgs stack a
    return 0

def sysDecrypt (proc : Proc) (stack : Buffer 16) : CtrM ℤ := do
  match checkArgs proc (← get).byte with
  | none => return -1
  | some a => do
    decryptArgs stack a
    return 0

def Inside (p n : ℕ) (sz : Word) : Prop := ∀ i < n, p + i < sz.toNat

structure CtrArgs.InProcess (a : CtrArgs) (sz : Word) : Prop where
  input : Inside a.input.toNat a.size.toNat sz
  output : Inside a.output.toNat a.size.toNat sz
  sequence : Inside a.sequence.toNat (roundUp a.size.toNat) sz
  key : Inside a.key.toNat 32 sz

def TouchesOnly (sz : Word) : Memory → Prop := TouchedIn fun x => x.toNat < sz.toNat

/-- The call goes on to the cipher with arguments that lie in the process and returns -1
on all others; it completes and keeps to the process. -/
structure ChecksArgs (proc : Proc) (cipher : CtrArgs → CtrM Unit) (call : CtrM ℤ)
    (user : Word → Byte) : Prop where
  proceeds : ∀ a, fetchArgs proc user = some a → a.InProcess proc.sz →
    call.run ⟨user, []⟩ = (do cipher a; return 0 : CtrM ℤ).run ⟨user, []⟩
  refuses : (∀ a, fetchArgs proc user = some a → ¬ a.InProcess proc.sz) →
    call.run ⟨user, []⟩ = .ok (-1) ⟨user, []⟩
  touches : Returns call ⟨user, []⟩ fun _ => TouchesOnly proc.sz

def PassesCheck (p n : ℕ) (sz : Word) : Prop :=
  p < sz.toNat ∧ (p + n) % 2 ^ 32 ≤ sz.toNat

structure CtrArgs.Passes (a : CtrArgs) (sz : Word) : Prop where
  input : PassesCheck a.input.toNat a.size.toNat sz
  output : PassesCheck a.output.toNat a.size.toNat sz
  sequence : PassesCheck a.sequence.toNat (a.size.toNat + 16 - a.size.toNat % 16) sz
  key : PassesCheck a.key.toNat 8 sz

/-- The checks pass although a range wraps around the end of the address space, or the key
does not end in the process. -/
def CtrArgs.Overlooked (a : CtrArgs) (sz : Word) : Prop :=
  a.Passes sz ∧
    (2 ^ 32 ≤ a.input.toNat + a.size.toNat ∨ 2 ^ 32 ≤ a.output.toNat + a.size.toNat ∨
      (a.size ≠ 0 ∧ sz.toNat < a.sequence.toNat + roundUp a.size.toNat ∧
        2 ^ 32 ≤ a.sequence.toNat + (a.size.toNat + 16 - a.size.toNat % 16)) ∨
      sz.toNat < a.key.toNat + 32)

/-- The ranges lie in the process, but the size is a multiple of 16 and the sequence ends
within a block of the end of the process, or the size is zero and a pointer lies outside. -/
def CtrArgs.Refused (a : CtrArgs) (sz : Word) : Prop :=
  a.InProcess sz ∧ a.size.toNat % 16 = 0 ∧
    ((sz.toNat < a.sequence.toNat + a.size.toNat + 16 ∧
        a.sequence.toNat + a.size.toNat + 16 < 2 ^ 32) ∨
      a.size = 0 ∧ (sz ≤ a.input ∨ sz ≤ a.output ∨ sz ≤ a.sequence))

theorem argptr_eq_some {proc : Proc} {user : Word → Byte} {n : ℕ} {size p : Word} :
    argptr proc user n size = some p ↔
      argint proc user n = some p ∧ PassesCheck p.toNat size.toNat proc.sz := by
  rw [argptr]
  cases h : argint proc user n with
  | none => simp
  | some q =>
    have hcheck : ¬ (q ≥ proc.sz ∨ q + size > proc.sz) ↔
        PassesCheck q.toNat size.toNat proc.sz := by
      rw [PassesCheck, ge_iff_le, gt_iff_lt, BitVec.le_def, BitVec.lt_def, BitVec.toNat_add]
      omega
    constructor
    · intro hp
      dsimp only at hp
      split_ifs at hp with hc
      obtain rfl := Option.some.inj hp
      exact ⟨rfl, hcheck.mp hc⟩
    · rintro ⟨hq, hp⟩
      obtain rfl := Option.some.inj hq
      exact if_neg (hcheck.mpr hp)

theorem passesCheck_sequence {p : ℕ} {size sz : Word} :
    PassesCheck p (sequenceSize size).toNat sz ↔
      PassesCheck p (size.toNat + 16 - size.toNat % 16) sz := by
  have hsize : (sequenceSize size).toNat = (size.toNat + 16 - size.toNat % 16) % 2 ^ 32 := by
    have hlt := size.isLt
    have h16 : (16 : Word).toNat = 16 := rfl
    rw [sequenceSize, BitVec.toNat_sub, BitVec.toNat_add, BitVec.toNat_umod, h16]
    omega
  rw [PassesCheck, PassesCheck, hsize, Nat.add_mod_mod]

theorem checkArgs_eq_some {proc : Proc} {user : Word → Byte} {a : CtrArgs} :
    checkArgs proc user = some a ↔ fetchArgs proc user = some a ∧ a.Passes proc.sz := by
  simp only [checkArgs, fetchArgs, Option.bind_eq_bind, Option.bind_eq_some_iff, argptr_eq_some,
    Option.pure_def, Option.some.injEq]
  constructor
  · rintro ⟨size, hsize, input, ⟨hinput, h₀⟩, output, ⟨houtput, h₁⟩, sequence, ⟨hsequence, h₃⟩, key,
      ⟨hkey, h₄⟩, rfl⟩
    exact ⟨⟨input, hinput, output, houtput, size, hsize, sequence, hsequence, key, hkey, rfl⟩,
      h₀, h₁, passesCheck_sequence.mp h₃, h₄⟩
  · rintro ⟨⟨input, hinput, output, houtput, size, hsize, sequence, hsequence, key, hkey, rfl⟩,
      h₀, h₁, h₃, h₄⟩
    exact ⟨size, hsize, input, ⟨hinput, h₀⟩, output, ⟨houtput, h₁⟩, sequence,
      ⟨hsequence, passesCheck_sequence.mpr h₃⟩, key, ⟨hkey, h₄⟩, rfl⟩

theorem inside_iff {p n : ℕ} {sz : Word} : Inside p n sz ↔ n = 0 ∨ p + n ≤ sz.toNat := by
  constructor
  · intro h
    by_cases hn : n = 0
    · exact Or.inl hn
    · have hlast := h (n - 1) (by omega)
      omega
  · rintro h i hi
    omega

namespace CtrArgs

variable {a : CtrArgs} {sz : Word}

theorem size_eq_zero_iff : a.size = 0 ↔ a.size.toNat = 0 := by
  rw [← BitVec.toNat_inj]
  rfl

theorem overlooked_of_passes (h : a.Passes sz) (hbad : ¬ a.InProcess sz) : a.Overlooked sz := by
  have hsz := sz.isLt
  refine ⟨h, ?_⟩
  obtain ⟨h₀, h₁, h₃, h₄⟩ := h
  by_contra hnone
  refine hbad ⟨?_, ?_, ?_, ?_⟩ <;> rw [inside_iff] <;>
    simp only [PassesCheck, roundUp, Ne, size_eq_zero_iff] at *
  · omega
  · omega
  · omega
  · omega

theorem not_inProcess_of_overlooked (h : a.Overlooked sz) : ¬ a.InProcess sz := by
  have hsz := sz.isLt
  obtain ⟨⟨h₀, h₁, h₃, h₄⟩, hbad⟩ := h
  rintro ⟨hinput, houtput, hsequence, hkey⟩
  rw [inside_iff] at hinput houtput hsequence hkey
  simp only [PassesCheck, roundUp, Ne, size_eq_zero_iff] at *
  omega

theorem refused_of_inProcess (h : a.InProcess sz) (hbad : ¬ a.Passes sz) : a.Refused sz := by
  have hsz := sz.isLt
  have hsize := a.size.isLt
  obtain ⟨hinput, houtput, hsequence, hkey⟩ := id h
  rw [inside_iff] at hinput houtput hsequence hkey
  by_contra hnone
  simp only [Refused, h, true_and, size_eq_zero_iff, BitVec.le_def] at hnone
  refine hbad ⟨?_, ?_, ?_, ?_⟩ <;> simp only [PassesCheck, roundUp] at *
  · omega
  · omega
  · omega
  · omega

theorem not_passes_of_refused (h : a.Refused sz) : ¬ a.Passes sz := by
  have hsz := sz.isLt
  obtain ⟨-, hmod, hbad⟩ := h
  rintro ⟨h₀, h₁, h₃, h₄⟩
  simp only [PassesCheck, size_eq_zero_iff, BitVec.le_def] at *
  omega

end CtrArgs

theorem offset_lt {p : Word} {n : ℕ} {sz : Word} (h : Inside p.toNat n sz) :
    ∀ i < n, (offset p i).toNat < sz.toNat := by
  intro i hi
  have hsz := sz.isLt
  have hlt := h i hi
  rw [offset, BitVec.toNat_add, BitVec.toNat_ofNat]
  omega

/-- The checks decide as documented, and a message that is encrypted fits the buffer of `ctr`. -/
structure CtrArgs.Exact (a : CtrArgs) (sz : Word) : Prop where
  notOverlooked : ¬ a.Overlooked sz
  notRefused : ¬ a.Refused sz
  oneBlock : a.InProcess sz → a.size.toNat ≤ 16

theorem encryptArgs_touches {a : CtrArgs} {sz : Word} (stack : Buffer 16) (h : a.InProcess sz)
    (h16 : a.size.toNat ≤ 16) : Keeps (TouchesOnly sz) (fun _ => False) (encryptArgs stack a) :=
  ctr_touches stack h16 (offset_lt h.input) (offset_lt h.output) (offset_lt h.sequence)
    (offset_lt h.key)

theorem encryptArgs_stops {a : CtrArgs} {m : Memory} (stack : Buffer 16) (h : 16 < a.size.toNat) :
    Stops (encryptArgs stack a) m fun e _ => e = .outOfBuffer :=
  ctr_stops h

theorem cipher_ne_refused (cipher : CtrArgs → CtrM Unit) (a : CtrArgs) (m m' : Memory) :
    (do cipher a; return 0 : CtrM ℤ).run m ≠ .ok (-1) m' := by
  intro h
  obtain ⟨_, _, -, hret⟩ := bind_eq_ok h
  cases hret

/-! Both calls are the one of this section: `cipher` behind the checks. -/

section Checked

variable {proc : Proc} {user : Word → Byte} {cipher : CtrArgs → CtrM Unit} {call : CtrM ℤ}
  (hrefuse : checkArgs proc user = none → call.run ⟨user, []⟩ = .ok (-1) ⟨user, []⟩)
  (haccept : ∀ a, checkArgs proc user = some a →
    call.run ⟨user, []⟩ = (do cipher a; return 0 : CtrM ℤ).run ⟨user, []⟩)
include hrefuse haccept

theorem ChecksArgs.exact_checks (hstops : ∀ a : CtrArgs, 16 < a.size.toNat →
      Stops (cipher a) ⟨user, []⟩ fun e _ => e = .outOfBuffer)
    (h : ChecksArgs proc cipher call user) {a : CtrArgs} (ha : fetchArgs proc user = some a) :
    a.Exact proc.sz := by
  have hover : ¬ a.Overlooked proc.sz := by
    intro hover
    have hrun := h.refuses fun b hb => by
      obtain rfl := Option.some.inj (ha.symm.trans hb)
      exact CtrArgs.not_inProcess_of_overlooked hover
    have hcheck := haccept a (checkArgs_eq_some.mpr ⟨ha, hover.1⟩)
    exact cipher_ne_refused cipher a _ _ (hcheck.symm.trans hrun)
  refine ⟨hover, fun href => ?_, fun hin => ?_⟩
  · have hnone : checkArgs proc user = none := by
      refine Option.eq_none_iff_forall_not_mem.mpr fun b hb => ?_
      obtain ⟨hb, hpasses⟩ := checkArgs_eq_some.mp hb
      obtain rfl := Option.some.inj (ha.symm.trans hb)
      exact CtrArgs.not_passes_of_refused href hpasses
    exact cipher_ne_refused cipher a _ _ ((h.proceeds a ha href.1).symm.trans (hrefuse hnone))
  · by_contra hlong
    have hreturns := h.touches
    rw [Returns, h.proceeds a ha hin] at hreturns
    exact (hstops a (by omega)).bind.not_returns hreturns

theorem checksArgs_of_exact (htouch : ∀ a : CtrArgs, a.InProcess proc.sz → a.size.toNat ≤ 16 →
      Keeps (TouchesOnly proc.sz) (fun _ => False) (cipher a))
    (h : ∀ a, fetchArgs proc user = some a → a.Exact proc.sz) :
    ChecksArgs proc cipher call user := by
  have hin (a : CtrArgs) (ha : checkArgs proc user = some a) : a.InProcess proc.sz := by
    obtain ⟨hfetch, hpasses⟩ := checkArgs_eq_some.mp ha
    by_contra hbad
    exact (h a hfetch).notOverlooked (CtrArgs.overlooked_of_passes hpasses hbad)
  refine ⟨fun a ha hproc => haccept a ?_, fun hbad => hrefuse ?_, ?_⟩
  · refine checkArgs_eq_some.mpr ⟨ha, ?_⟩
    by_contra hfail
    exact (h a ha).notRefused (CtrArgs.refused_of_inProcess hproc hfail)
  · refine Option.eq_none_iff_forall_not_mem.mpr fun a ha => ?_
    exact hbad a (checkArgs_eq_some.mp ha).1 (hin a ha)
  · cases hcheck : checkArgs proc user with
    | none => exact returns_of_eq (hrefuse hcheck) (by simp [TouchesOnly, TouchedIn])
    | some a =>
      have hsize := (h a (checkArgs_eq_some.mp hcheck).1).oneBlock (hin a hcheck)
      rw [Returns, haccept a hcheck]
      exact (((htouch a (hin a hcheck) hsize).bind fun _ => keeps_pure (0 : ℤ)) ⟨user, []⟩
        (by simp [TouchesOnly, TouchedIn])).returns fun _ _ he => he.1

end Checked

theorem sysEncrypt_checksArgs_iff (proc : Proc) (stack : Buffer 16) (user : Word → Byte) :
    (ChecksArgs proc (encryptArgs stack) (sysEncrypt proc stack) user ∧
      ChecksArgs proc (decryptArgs stack) (sysDecrypt proc stack) user) ↔
    ∀ a, fetchArgs proc user = some a → a.Exact proc.sz := by
  constructor
  · exact fun h a ha => h.1.exact_checks (fun hn => by rw [sysEncrypt, get_bind, hn]; rfl)
      (fun b hb => by rw [sysEncrypt, get_bind, hb]) (fun b => encryptArgs_stops stack) ha
  · refine fun h => ⟨checksArgs_of_exact (fun hn => by rw [sysEncrypt, get_bind, hn]; rfl)
      (fun a ha => by rw [sysEncrypt, get_bind, ha]) (fun a => encryptArgs_touches stack) h,
      checksArgs_of_exact (fun hn => by rw [sysDecrypt, get_bind, hn]; rfl)
      (fun a ha => by rw [sysDecrypt, get_bind, ha]) (fun a => encryptArgs_touches stack) h⟩

def argMemory (a : CtrArgs) (x : Word) : Byte :=
  let word := match x.toNat / 4 with
    | 1 => a.input
    | 2 => a.output
    | 3 => a.size
    | 4 => a.sequence
    | 5 => a.key
    | _ => 0
  byteOf word (x.toNat % 4)

/-- A key that starts 8 bytes before the end of the process is read behind it, and 16
bytes with a sequence that fills the process to its end are refused. -/
theorem not_sysEncrypt_checksArgs :
    (Returns (sysEncrypt ⟨0x4000, 0⟩ fun _ => 0)
      ⟨argMemory ⟨0x100, 0x100, 0, 0x100, 0x3ff8⟩, []⟩ fun r m' => r = 0 ∧ 0x4017 ∈ m'.touched) ∧
    (CtrArgs.InProcess ⟨0x100, 0x100, 16, 0x3ff0, 0x200⟩ 0x4000 ∧
      (sysEncrypt ⟨0x4000, 0⟩ fun _ => 0).run
        ⟨argMemory ⟨0x100, 0x100, 16, 0x3ff0, 0x200⟩, []⟩ =
          .ok (-1) ⟨argMemory ⟨0x100, 0x100, 16, 0x3ff0, 0x200⟩, []⟩) := by
  refine ⟨?_, ⟨?_, ?_, ?_, ?_⟩, ?_⟩
  · have hcheck : checkArgs ⟨0x4000, 0⟩ (argMemory ⟨0x100, 0x100, 0, 0x100, 0x3ff8⟩) =
        some ⟨0x100, 0x100, 0, 0x100, 0x3ff8⟩ := by decide
    rw [Returns, sysEncrypt, get_bind, hcheck]
    exact ⟨0, _, rfl, rfl, by decide⟩
  · rw [inside_iff]
    decide
  · rw [inside_iff]
    decide
  · rw [inside_iff]
    decide
  · rw [inside_iff]
    decide
  · have hcheck : checkArgs ⟨0x4000, 0⟩ (argMemory ⟨0x100, 0x100, 16, 0x3ff0, 0x200⟩) = none := by
      decide
    rw [sysEncrypt, get_bind, hcheck]
    rfl

end Xv6Prng
