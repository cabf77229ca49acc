import Xv6Prng.AesField

/-!
# The cipher of `aes.c` is AES

The standard's cipher is stated over the field: the state is a four by four array of
field elements, the S-box is inversion followed by the affine map, a column is multiplied
by a fixed polynomial modulo `X^4 + 1`, and the words of the key schedule are defined by
recursion. The array of bytes in `aes.c`, read as field elements by rows and columns,
follows it through every layer.
-/

noncomputable section

namespace Xv6Prng.Fips197

open Aes ByteWords BinaryField Polynomial

inductive Variant
  | aes128
  | aes192
  | aes256

namespace Variant

def Nk : Variant → ℕ
  | aes128 => 4
  | aes192 => 6
  | aes256 => 8

def Nr : Variant → ℕ
  | aes128 => 10
  | aes192 => 12
  | aes256 => 14

theorem Nr_eq (v : Variant) : v.Nr = 6 + v.Nk := by cases v <;> rfl

theorem Nk_pos (v : Variant) : 0 < v.Nk := by cases v <;> decide

end Variant

abbrev State := Fin 4 → Fin 4 → GF

abbrev KeyWord := Fin 4 → GF

def subBytes (s : State) : State := fun r c => fieldSBox (s r c)

def shiftRows (s : State) : State := fun r c => s r (c + r)

def mixPolynomial : GF[X] := C (GF.x + 1) * X ^ 3 + X ^ 2 + X + C GF.x

def mixColumns (s : State) : State := fun r c =>
  ((mixPolynomial * column fun i => s i c) %ₘ (X ^ 4 + 1)).coeff r.val

def addRoundKey (w : ℕ → KeyWord) (round : ℕ) (s : State) : State := fun r c =>
  s r c + w (4 * round + c.val) r

def rotWord (w : KeyWord) : KeyWord := fun r => w (finRotate 4 r)

def subWord (w : KeyWord) : KeyWord := fun r => fieldSBox (w r)

def rcon (i : ℕ) : KeyWord := ![GF.x ^ (i - 1), 0, 0, 0]

def scheduleTemp (v : Variant) (i : ℕ) (temp : KeyWord) : KeyWord :=
  if i % v.Nk = 0 then subWord (rotWord temp) + rcon (i / v.Nk)
  else if v.Nk > 6 ∧ i % v.Nk = 4 then subWord temp
  else temp

def keySchedule (v : Variant) (key : ℕ → GF) (i : ℕ) : KeyWord :=
  if i < v.Nk then fun r => key (4 * i + r.val)
  else keySchedule v key (i - v.Nk) + scheduleTemp v i (keySchedule v key (i - 1))
termination_by i
decreasing_by
  all_goals
    have := v.Nk_pos
    omega

def afterRounds (w : ℕ → KeyWord) (s : State) : ℕ → State
  | 0 => addRoundKey w 0 s
  | n + 1 => addRoundKey w (n + 1) (mixColumns (shiftRows (subBytes (afterRounds w s n))))

theorem cell_lt (r c : Fin 4) : r.val + 4 * c.val < 16 := by omega

theorem row_lt (i : Fin 16) : i.val % 4 < 4 := by omega

theorem column_lt (i : Fin 16) : i.val / 4 < 4 := by omega

def cipher (v : Variant) (key : ℕ → GF) (input : Fin 16 → GF) : Fin 16 → GF :=
  let w := keySchedule v key
  let state := afterRounds w (fun r c => input ⟨r.val + 4 * c.val, cell_lt r c⟩) (v.Nr - 1)
  let state := addRoundKey w v.Nr (shiftRows (subBytes state))
  fun i => state ⟨i.val % 4, row_lt i⟩ ⟨i.val / 4, column_lt i⟩

def aes (v : Variant) (key : ℕ → Byte) (input : Block) : Block :=
  Vector.ofFn fun i =>
    toField.symm (cipher v (fun j => toField (key j)) (fun j => toField (input.get j)) i)

def cells (s : Block) : State := fun r c => toField (byteOfState r c s)

def keyWord (w : Word) : KeyWord := fun r => toField (byteOf w (3 - r.val))

theorem cells_subBytes (s : Block) : cells (Aes.subBytes s) = subBytes (cells s) := by
  funext r c
  rw [cells, Aes.subBytes, byteOfState_ofCells, toField_sBox]
  rfl

theorem cells_shiftRows (s : Block) : cells (Aes.shiftRows s) = shiftRows (cells s) := by
  funext r c
  rw [cells, Aes.shiftRows, byteOfState_ofCells]
  rfl

theorem mixPolynomial_eq : mixPolynomial = column ![GF.x, 1, 1, GF.x + 1] := by
  rw [mixPolynomial, column, Fin.sum_univ_four]
  simp
  ring

theorem mixColumns_apply (s : State) (r c : Fin 4) :
    mixColumns s r c = ∑ j, ![GF.x, 1, 1, GF.x + 1] (r - j) * s j c := by
  rw [mixColumns, mixPolynomial_eq, ← C_1, column_mul_modByMonic, coeff_column]

theorem toField_mult_two (b : Byte) : toField (mult 2 b) = GF.x * toField b := by
  have htwo : toField 2 = GF.x := by
    rw [show (2 : Byte) = xTimes 1 by decide, toField_xTimes, toField_one, mul_one]
  rw [toField_mult, htwo]

theorem toField_mult_three (b : Byte) : toField (mult 3 b) = (GF.x + 1) * toField b := by
  have hthree : toField 3 = GF.x + 1 := by
    rw [show (3 : Byte) = xTimes 1 ^^^ 1 by decide, toField_xor, toField_xTimes, toField_one,
      mul_one]
  rw [toField_mult, hthree]

theorem cells_mixColumns (s : Block) : cells (Aes.mixColumns s) = mixColumns (cells s) := by
  funext r c
  rw [mixColumns_apply, Fin.sum_univ_four, cells, Aes.mixColumns, byteOfState_ofCells]
  fin_cases r <;> dsimp only <;> simp only [toField_xor, toField_mult_two, toField_mult_three] <;>
    simp [cells]

theorem cells_addRoundKey {w : ℕ → KeyWord} {roundKeys : RoundKeys} (s : Block) (round : ℕ)
    (h : ∀ c < 4, keyWord (roundKeys (round * 4 + c)) = w (round * 4 + c)) :
    cells (Aes.addRoundKey s roundKeys (round * 4)) = addRoundKey w round (cells s) := by
  funext r c
  have hkey := congrFun (h c.val c.isLt) r
  rw [cells, Aes.addRoundKey, byteOfState_ofCells, toField_xor, addRoundKey, Nat.mul_comm 4 round,
    ← hkey]
  rfl

theorem keyWord_xor (v w : Word) : keyWord (v ^^^ w) = keyWord v + keyWord w := by
  funext r
  rw [keyWord, byteOf, BitVec.extractLsb'_xor, toField_xor]
  rfl

theorem keyWord_rotWord (w : Word) : keyWord (Aes.rotWord w) = rotWord (keyWord w) := by
  have hbyte (r : Fin 4) : byteOf (Aes.rotWord w) (3 - r.val) = byteOf w (3 - (r + 1).val) := by
    apply BitVec.eq_of_getLsbD_eq
    intro i hi
    simp only [byteOf, Aes.rotWord, BitVec.getLsbD_extractLsb', BitVec.getLsbD_or,
      BitVec.getLsbD_shiftLeft, BitVec.getLsbD_ushiftRight]
    have hhigh (j : ℕ) : w.getLsbD (24 + (8 * (j + 1) + i)) = false :=
      BitVec.getLsbD_of_ge w _ (by omega)
    fin_cases r
    · simp [show 24 + i < 32 by omega, show ¬ 24 + i < 8 by omega,
        show 24 + i - 8 = 16 + i by omega, hhigh 2]
    · simp [show 16 + i < 32 by omega, show ¬ 16 + i < 8 by omega,
        show 16 + i - 8 = 8 + i by omega, hhigh 1]
    · simp [show 8 + i < 32 by omega, hhigh 0]
    · simp [hi]
  funext r
  rw [keyWord, hbyte, rotWord, finRotate_apply, keyWord]

theorem keyWord_subWord (w : Word) : keyWord (Aes.subWord w) = subWord (keyWord w) := by
  have hbyte (r : Fin 4) : byteOf (Aes.subWord w) (3 - r.val) = sBox (byteOf w (3 - r.val)) := by
    obtain ⟨h₀, h₁, h₂, h₃⟩ := byteOf_ofBytes (sBox (byteOf w 0)) (sBox (byteOf w 1))
      (sBox (byteOf w 2)) (sBox (byteOf w 3))
    fin_cases r
    · exact h₃
    · exact h₂
    · exact h₁
    · exact h₀
  funext r
  rw [keyWord, hbyte, toField_sBox]
  rfl

theorem toField_iterate_xTimes (k : ℕ) : toField (xTimes^[k] 1) = GF.x ^ k := by
  induction k with
  | zero => exact toField_one
  | succ k ih => rw [Function.iterate_succ_apply', toField_xTimes, ih, pow_succ']

theorem keyWord_rcon {i : ℕ} (h0 : 0 < i) (h10 : i ≤ 10) : keyWord (Aes.rcon i) = rcon i := by
  have htable : ∀ k < 10, byteOf (Aes.rcon (k + 1)) 3 = xTimes^[k] 1 ∧
      byteOf (Aes.rcon (k + 1)) 2 = 0 ∧ byteOf (Aes.rcon (k + 1)) 1 = 0 ∧
      byteOf (Aes.rcon (k + 1)) 0 = 0 := by decide
  obtain ⟨k, rfl⟩ : ∃ k, i = k + 1 := ⟨i - 1, by omega⟩
  obtain ⟨h₃, h₂, h₁, h₀⟩ := htable k (by omega)
  funext r
  fin_cases r
  · change toField (byteOf (Aes.rcon (k + 1)) 3) = GF.x ^ (k + 1 - 1)
    rw [h₃, toField_iterate_xTimes, Nat.add_sub_cancel]
  · change toField (byteOf (Aes.rcon (k + 1)) 2) = 0
    rw [h₂, toField_zero]
  · change toField (byteOf (Aes.rcon (k + 1)) 1) = 0
    rw [h₁, toField_zero]
  · change toField (byteOf (Aes.rcon (k + 1)) 0) = 0
    rw [h₀, toField_zero]

def keyBytes (key : ℕ → Word) (j : ℕ) : Byte := byteOf (key (j / 4)) (3 - j % 4)

section Schedule

variable {v : Variant} {key : ℕ → Word}

def Expanded (v : Variant) (key : ℕ → Word) (roundKeys : List Word) : Prop :=
  ∀ i < roundKeys.length,
    keyWord (roundKeys.getD i 0) = keySchedule v (fun j => toField (keyBytes key j)) i

theorem expanded_key : Expanded v key ((List.range v.Nk).map key) := by
  intro i hi
  have hi' : i < v.Nk := by simpa using hi
  rw [keySchedule, if_pos hi']
  funext r
  have hr := r.isLt
  have hdiv : (4 * i + r.val) / 4 = i := by omega
  have hmod : (4 * i + r.val) % 4 = r.val := by omega
  simp [keyWord, keyBytes, hdiv, hmod, hi']

theorem keyWord_temp {i : ℕ} (hi : v.Nk ≤ i) (hmax : i < 4 * (v.Nr + 1)) (temp : Word) :
    keyWord (if i % v.Nk = 0 then Aes.subWord (Aes.rotWord temp) ^^^ Aes.rcon (i / v.Nk)
      else if v.Nk > 6 ∧ i % v.Nk = 4 then Aes.subWord temp else temp) =
      scheduleTemp v i (keyWord temp) := by
  have hround : 0 < i / v.Nk ∧ i / v.Nk ≤ 10 := by
    cases v <;> simp only [Variant.Nk, Variant.Nr] at * <;> omega
  rw [scheduleTemp]
  split_ifs
  · rw [keyWord_xor, keyWord_subWord, keyWord_rotWord, keyWord_rcon hround.1 hround.2]
  · exact keyWord_subWord temp
  · rfl

theorem Expanded.step {roundKeys : List Word} {i : ℕ} (h : Expanded v key roundKeys)
    (hlen : roundKeys.length = i) (hi : v.Nk ≤ i) (hmax : i < 4 * (v.Nr + 1)) :
    Expanded v key (expandStep v.Nk roundKeys i) := by
  have hpos := v.Nk_pos
  intro j hj
  rw [expandStep, List.length_append, List.length_singleton] at hj
  by_cases hlt : j < roundKeys.length
  · rw [expandStep, List.getD_append _ _ _ _ hlt]
    exact h j hlt
  · obtain rfl : j = i := by omega
    conv_rhs => rw [keySchedule, if_neg (by omega)]
    rw [expandStep, List.getD_append_right _ _ _ _ (by omega), hlen, Nat.sub_self,
      List.getD_cons_zero, keyWord_xor, keyWord_temp hi hmax, h _ (by omega), h _ (by omega)]

theorem expanded_foldl {n : ℕ} (hn : v.Nk + n ≤ 4 * (v.Nr + 1)) :
    Expanded v key ((List.range' v.Nk n).foldl (expandStep v.Nk) ((List.range v.Nk).map key)) ∧
      ((List.range' v.Nk n).foldl (expandStep v.Nk) ((List.range v.Nk).map key)).length =
        v.Nk + n := by
  induction n with
  | zero => exact ⟨expanded_key, by simp⟩
  | succ n ih =>
    obtain ⟨h, hlen⟩ := ih (by omega)
    rw [List.range'_1_concat, List.foldl_append, List.foldl_cons, List.foldl_nil]
    refine ⟨h.step hlen (by omega) (by omega), ?_⟩
    rw [expandStep, List.length_append, hlen, List.length_singleton]
    omega

theorem keyWord_keyExpansion {i : ℕ} (hi : i < 4 * (v.Nr + 1)) :
    keyWord (keyExpansion key v.Nk i) = keySchedule v (fun j => toField (keyBytes key j)) i := by
  have hNr := v.Nr_eq
  have hn : v.Nk + (4 * (6 + v.Nk + 1) - v.Nk) ≤ 4 * (v.Nr + 1) := by omega
  have hexpanded : Expanded v key _ ∧ _ := expanded_foldl hn
  obtain ⟨h, hlen⟩ := hexpanded
  exact h i (by omega)

end Schedule

theorem cells_rounds {w : ℕ → KeyWord} {roundKeys : RoundKeys} {n : ℕ} (s : Block)
    (h : ∀ i < 4 * (n + 1), keyWord (roundKeys i) = w i) :
    cells ((List.range' 1 n).foldl (encryptRound roundKeys) (Aes.addRoundKey s roundKeys 0)) =
      afterRounds w (cells s) n := by
  induction n with
  | zero => exact cells_addRoundKey s 0 fun c hc => h _ (by omega)
  | succ n ih =>
    have hkey : ∀ c < 4, keyWord (roundKeys ((1 + n) * 4 + c)) = w ((1 + n) * 4 + c) :=
      fun c hc => h _ (by omega)
    have hround := fun t => cells_addRoundKey t (1 + n) hkey
    rw [List.range'_1_concat, List.foldl_append, List.foldl_cons, List.foldl_nil, encryptRound,
      hround, cells_mixColumns, cells_shiftRows, cells_subBytes, ih fun i hi => h i (by omega),
      afterRounds, Nat.add_comm 1 n]

theorem cells_loadToState (input : Block) :
    cells (loadToState input) =
      fun r c => toField (input.get ⟨r.val + 4 * c.val, cell_lt r c⟩) := by
  funext r c
  rw [cells, loadToState, byteOfState_ofCells]
  simp only [Vector.get_eq_getElem, Nat.add_comm, Nat.mul_comm]

/-- For each of the three key lengths, every key and every block. -/
theorem aesEncrypt_eq_aes (v : Variant) (key : ℕ → Word) (input : Block) :
    aesEncrypt input (keyExpansion key v.Nk) v.Nk = aes v (keyBytes key) input := by
  have hkeys : ∀ i < 4 * (v.Nr + 1), keyWord (keyExpansion key v.Nk i) =
      keySchedule v (fun j => toField (keyBytes key j)) i := fun i hi => keyWord_keyExpansion hi
  have hNr := v.Nr_eq
  generalize keyExpansion key v.Nk = roundKeys at hkeys
  have hrounds := cells_rounds (n := v.Nr - 1) (loadToState input) fun i hi => hkeys i (by omega)
  have hlast := fun t => cells_addRoundKey t v.Nr fun c hc => hkeys _ (by omega)
  apply Vector.ext
  intro i hi
  rw [aesEncrypt, ← hNr, loadFromState, Vector.getElem_ofFn, aes, Vector.getElem_ofFn,
    Equiv.eq_symm_apply, cipher, ← cells_loadToState, ← hrounds, ← cells_subBytes,
    ← cells_shiftRows, ← hlast]
  rfl

end Xv6Prng.Fips197

end
