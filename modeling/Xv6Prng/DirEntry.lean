import Xv6Prng.OnDisk

/-!
# Names and directory entries

A name is compared on its first `DIRSIZ` bytes and ends before them at a zero byte, if there is
one. `nameOf` is the name that a string in memory stands for: `strncmp` finds two strings equal
exactly if they stand for the same name, and `strncpy` into an entry keeps it.
-/

namespace Xv6Prng.FileSys

open ByteWords Fs

abbrev DIRSIZ : ℕ := 14

abbrev Str := ℕ → Byte

def Str.tail (p : Str) : Str := fun k => p (k + 1)

def strncmp (p q : Str) : ℕ → ℤ
  | 0 => 0
  | n + 1 =>
    if p 0 ≠ 0 ∧ p 0 = q 0 then strncmp p.tail q.tail n else (p 0).toNat - (q 0).toNat

def strncpy (t : Str) : ℕ → List Byte
  | 0 => []
  | n + 1 => t 0 :: if t 0 = 0 then List.replicate n 0 else strncpy t.tail n

def namecmp (s t : Str) : ℤ := strncmp s t DIRSIZ

def nameOf (p : Str) : ℕ → List Byte
  | 0 => []
  | n + 1 => if p 0 = 0 then [] else p 0 :: nameOf p.tail n

theorem strncmp_eq_zero_iff (p q : Str) (n : ℕ) : strncmp p q n = 0 ↔ nameOf p n = nameOf q n := by
  induction n generalizing p q with
  | zero => simp only [strncmp, nameOf]
  | succ n ih =>
    rw [strncmp, nameOf, nameOf]
    by_cases hsame : p 0 ≠ 0 ∧ p 0 = q 0
    · rw [if_pos hsame, ih, if_neg hsame.1, if_neg (hsame.2 ▸ hsame.1), hsame.2, List.cons_inj_right]
    · rw [if_neg hsame, sub_eq_zero, Nat.cast_inj, BitVec.toNat_inj]
      by_cases hp : p 0 = 0 <;> by_cases hq : q 0 = 0
      · simp only [hp, hq, if_true]
      · simp only [hp, hq, if_true, if_false, Ne.symm hq, reduceCtorEq]
      · simp only [hp, hq, if_true, if_false, reduceCtorEq]
      · have hne : p 0 ≠ q 0 := fun heq => hsame ⟨hp, heq⟩
        simp only [hp, hq, if_false, hne, List.cons.injEq, false_and]

theorem namecmp_eq_zero_iff (s t : Str) : namecmp s t = 0 ↔ nameOf s DIRSIZ = nameOf t DIRSIZ :=
  strncmp_eq_zero_iff s t DIRSIZ

theorem nameOf_congr {p q : Str} {n : ℕ} (h : ∀ k < n, p k = q k) : nameOf p n = nameOf q n := by
  induction n generalizing p q with
  | zero => rfl
  | succ n ih =>
    have htail : nameOf p.tail n = nameOf q.tail n := ih fun k hk => h (k + 1) (by omega)
    rw [nameOf, nameOf, h 0 (Nat.succ_pos n), htail]

theorem nameOf_strncpy (t : Str) (n : ℕ) :
    nameOf (fun k => (strncpy t n).getD k 0) n = nameOf t n := by
  induction n generalizing t with
  | zero => rfl
  | succ n ih =>
    simp only [strncpy, nameOf, List.getD_cons_zero]
    by_cases h0 : t 0 = 0
    · rw [if_pos h0, if_pos h0]
    · rw [if_neg h0, if_neg h0, if_neg h0, ← ih t.tail]
      rfl

structure Dirent where
  inum : Short
  name : Fin DIRSIZ → Byte
  deriving DecidableEq

abbrev DESIZE : ℕ := 16

namespace Dirent

def zero : Dirent := ⟨0, fun _ => 0⟩

def make (name : Str) (inum : ℕ) : Dirent :=
  ⟨BitVec.ofNat 16 inum, fun k => (strncpy name DIRSIZ).getD k 0⟩

def str (de : Dirent) : Str := fun k => if h : k < DIRSIZ then de.name ⟨k, h⟩ else 0

def key (de : Dirent) : List Byte := nameOf de.str DIRSIZ

def bytes (de : Dirent) : Str
  | 0 => de.inum.extractLsb' 0 8
  | 1 => de.inum.extractLsb' 8 8
  | k + 2 => de.str k

def ofBytes (p : Str) : Dirent := ⟨p 1 ++ p 0, fun k => p (k.val + 2)⟩

theorem ofBytes_bytes (de : Dirent) : ofBytes de.bytes = de := by
  have hinum : (de.inum.extractLsb' 8 8 : Byte) ++ (de.inum.extractLsb' 0 8 : Byte) = de.inum := by
    apply BitVec.eq_of_getLsbD_eq
    intro i hi
    simp only [BitVec.getLsbD_append, BitVec.getLsbD_extractLsb']
    interval_cases i <;> simp
  cases de with
  | mk inum name =>
    simp only [ofBytes, bytes, str, Fin.is_lt, dite_true, hinum]

theorem ofBytes_congr {p q : Str} (h : ∀ k < DESIZE, p k = q k) : ofBytes p = ofBytes q := by
  have hname (k : Fin DIRSIZ) : p (k.val + 2) = q (k.val + 2) :=
    h _ (Nat.add_lt_add_right k.isLt 2)
  simp only [ofBytes, h 0 (by decide), h 1 (by decide), hname]

theorem key_make (name : Str) (inum : ℕ) : (make name inum).key = nameOf name DIRSIZ := by
  rw [key, ← nameOf_strncpy name DIRSIZ]
  exact nameOf_congr fun k hk => dif_pos hk
end Dirent

end Xv6Prng.FileSys
