import Mathlib

/-!
# Bytes, little-endian words and buffers

A 32-bit word is four bytes, least significant first. A buffer of `n` bytes is
a function on `Fin n`, so that a byte outside it does not exist; reading one
back at a number is partial. Words are read from and written to a buffer at
four times their index.
-/

namespace Xv6Prng

abbrev Byte := BitVec 8
abbrev Word := BitVec 32
abbrev Buffer (n : ℕ) := Fin n → Byte

variable {i : ℕ}

namespace ByteWords

def byteOf (w : Word) (k : ℕ) : Byte := w.extractLsb' (8 * k) 8

def ofBytes (b₀ b₁ b₂ b₃ : Byte) : Word := b₃ ++ b₂ ++ b₁ ++ b₀

theorem byteOf_ofBytes (b₀ b₁ b₂ b₃ : Byte) :
    byteOf (ofBytes b₀ b₁ b₂ b₃) 0 = b₀ ∧ byteOf (ofBytes b₀ b₁ b₂ b₃) 1 = b₁ ∧
    byteOf (ofBytes b₀ b₁ b₂ b₃) 2 = b₂ ∧ byteOf (ofBytes b₀ b₁ b₂ b₃) 3 = b₃ := by
  refine ⟨?_, ?_, ?_, ?_⟩ <;>
  · ext i hi
    simp only [byteOf, ofBytes, BitVec.getElem_extractLsb', BitVec.getLsbD_append]
    interval_cases i <;> simp

theorem ofBytes_byteOf (w : Word) :
    ofBytes (byteOf w 0) (byteOf w 1) (byteOf w 2) (byteOf w 3) = w := by
  apply BitVec.eq_of_getLsbD_eq
  intro i hi
  simp only [byteOf, ofBytes, BitVec.getLsbD_append, BitVec.getLsbD_extractLsb']
  interval_cases i <;> simp

theorem word_ext {v w : Word} (h₀ : byteOf v 0 = byteOf w 0) (h₁ : byteOf v 1 = byteOf w 1)
    (h₂ : byteOf v 2 = byteOf w 2) (h₃ : byteOf v 3 = byteOf w 3) : v = w := by
  rw [← ofBytes_byteOf v, ← ofBytes_byteOf w, h₀, h₁, h₂, h₃]

theorem toInt_ofNat {n : ℕ} (h : n < 2 ^ 31) : (BitVec.ofNat 32 n).toInt = n := by
  have hn : (BitVec.ofNat 32 n).toNat = n := by
    rw [BitVec.toNat_ofNat, Nat.mod_eq_of_lt (by omega)]
  rw [BitVec.toInt_eq_toNat_of_lt (by omega), hn]

section Buffer

variable {n : ℕ}

def load? (p : Buffer n) (i : ℕ) : Option Byte := if h : i < n then some (p ⟨i, h⟩) else none

def store? (p : Buffer n) (i : ℕ) (b : Byte) : Option (Buffer n) :=
  if h : i < n then some (Function.update p ⟨i, h⟩ b) else none

theorem load?_of_lt (p : Buffer n) (h : i < n) : load? p i = some (p ⟨i, h⟩) := by
  simp [load?, h]

theorem load?_of_le (p : Buffer n) (h : n ≤ i) : load? p i = none := by
  simp [load?, Nat.not_lt.mpr h]

theorem store?_of_lt (p : Buffer n) (b : Byte) (h : i < n) :
    store? p i b = some (Function.update p ⟨i, h⟩ b) := by simp [store?, h]

def byteAt (p : Buffer n) (i : ℕ) : Byte := (load? p i).getD 0

theorem byteAt_of_lt (p : Buffer n) (h : i < n) : byteAt p i = p ⟨i, h⟩ := by
  simp [byteAt, load?, h]

def loadWord (p : Buffer n) (k : ℕ) : Word :=
  ofBytes (byteAt p (4 * k)) (byteAt p (4 * k + 1)) (byteAt p (4 * k + 2)) (byteAt p (4 * k + 3))

def storeWord (p : Buffer n) (k : ℕ) (w : Word) : Buffer n :=
  fun i => if i.val / 4 = k then byteOf w (i.val % 4) else p i

theorem byteAt_storeWord (p : Buffer n) (k : ℕ) (w : Word) (hi : i < n) :
    byteAt (storeWord p k w) i = if i / 4 = k then byteOf w (i % 4) else byteAt p i := by
  rw [byteAt_of_lt _ hi, byteAt_of_lt _ hi]
  rfl

theorem loadWord_storeWord_self (p : Buffer n) {k : ℕ} (w : Word) (hk : 4 * k + 4 ≤ n) :
    loadWord (storeWord p k w) k = w := by
  have hb (j : ℕ) (hj : j < 4) : byteAt (storeWord p k w) (4 * k + j) = byteOf w j := by
    rw [byteAt_storeWord _ _ _ (by omega), if_pos (by omega)]
    congr 1
    omega
  have h₀ := hb 0 (by omega)
  rw [Nat.add_zero] at h₀
  rw [loadWord, h₀, hb 1 (by omega), hb 2 (by omega), hb 3 (by omega), ofBytes_byteOf]

theorem loadWord_storeWord_ne (p : Buffer n) {k l : ℕ} (w : Word) (hl : 4 * l + 4 ≤ n)
    (hne : l ≠ k) : loadWord (storeWord p k w) l = loadWord p l := by
  have hb (j : ℕ) (hj : j < 4) : byteAt (storeWord p k w) (4 * l + j) = byteAt p (4 * l + j) := by
    rw [byteAt_storeWord _ _ _ (by omega), if_neg (by omega)]
  have h₀ := hb 0 (by omega)
  rw [Nat.add_zero] at h₀
  rw [loadWord, loadWord, h₀, hb 1 (by omega), hb 2 (by omega), hb 3 (by omega)]

theorem loadWord_zero (k : ℕ) : loadWord (fun _ => 0 : Buffer n) k = 0 := by
  have hb (i : ℕ) : byteAt (fun _ => 0 : Buffer n) i = 0 := by
    simp only [byteAt, load?]
    split <;> rfl
  simp only [loadWord, hb]
  decide

def storeWords (p : Buffer n) (base len : ℕ) (w : ℕ → Word) : Buffer n :=
  fun i => if base ≤ i.val / 4 ∧ i.val / 4 < base + len then byteOf (w (i.val / 4 - base)) (i.val % 4)
    else p i

theorem loadWord_storeWords (p : Buffer n) (base len : ℕ) (w : ℕ → Word) {k : ℕ}
    (hk : 4 * k + 4 ≤ n) : loadWord (storeWords p base len w) k =
      if base ≤ k ∧ k < base + len then w (k - base) else loadWord p k := by
  have hb (j : ℕ) (hj : j < 4) : byteAt (storeWords p base len w) (4 * k + j) =
      if base ≤ k ∧ k < base + len then byteOf (w (k - base)) j else byteAt p (4 * k + j) := by
    rw [byteAt_of_lt _ (by omega), byteAt_of_lt _ (by omega), storeWords]
    simp only [show (4 * k + j) / 4 = k by omega, show (4 * k + j) % 4 = j by omega]
  have h₀ := hb 0 (by omega)
  rw [Nat.add_zero] at h₀
  rw [loadWord, h₀, hb 1 (by omega), hb 2 (by omega), hb 3 (by omega)]
  split_ifs
  · exact ofBytes_byteOf _
  · rfl

def storeBytes (p : Buffer n) (off len : ℕ) (src : ℕ → Byte) : Buffer n :=
  fun i => if off ≤ i.val ∧ i.val < off + len then src (i.val - off) else p i

theorem byteAt_storeBytes (p : Buffer n) (off len : ℕ) (src : ℕ → Byte) (hi : i < n) :
    byteAt (storeBytes p off len src) i =
      if off ≤ i ∧ i < off + len then src (i - off) else byteAt p i := by
  rw [byteAt_of_lt _ hi, byteAt_of_lt _ hi]
  rfl

end Buffer
end ByteWords
end Xv6Prng
